import UserThreads.ForkPreemption
import UserThreads.Semaphores

/-!
Programs that run on the library. A program has a body for every function that
is given to `t_fork`, and a code that says, for the values of the shared
variables and the place where a thread is in its body, what the thread does
next: one statement of its own, a call, or its return. A world is the state of
the library with the shared variables and the place of every thread. `Turn` says
what a step of a world does to the threads as the program sees them.
-/
namespace UserThreads.Threads

open LinkedCells Queue Runs MultilevelQueue

/-- What a thread does next: a statement that leaves these values of the shared
variables, a call, or the return from its function; with the place after it. -/
inductive Stmt (G L : Type)
  | act (shared : G) (next : L)
  | call (op : Op) (next : L)
  | ret

/-- `body f v` is where a thread begins that calls the function `f` on `v`. -/
structure Program (G L : Type) where
  body : ThreadFunc → AnyPtr → L
  code : G → L → Stmt G L

structure World (G L : Type) where
  sys : State
  shared : G
  threads : Tid → L

/-- The timer is delivered, or the running thread goes on. -/
inductive Tick
  | expire
  | run
deriving DecidableEq

/-- The library calls that the program makes: it joins nobody, and its
semaphores are those that `main` has created. -/
def Op.plain : Op → Bool
  | .tJoin _ | .semaphoreCreate .. | .semaphoreDestroy _ => false
  | _ => true

section Program

variable {G L : Type}

/-- Where the threads are when the library goes on in state `s`: a new thread is
at the beginning of the body it was forked with, and a thread that enters
`userFunction` at the beginning of that. -/
def Program.launch (P : Program G L) (s : State) (threads : Tid → L) : Tid → L :=
  match s.stack with
  | .enter (.tFork f v _) :: _ => Function.update threads (s.gThreadID + 1) (P.body f v)
  | .start :: _ =>
    Function.update threads s.currentRunningThread (P.body s.userFunction s.current.arg)
  | _ => threads

/-- One step of a world. -/
def World.step (g : Grain) (P : Program G L) (tick : Tick) (w : World G L) :
    Option (World G L) :=
  match tick with
  | .expire => (Threads.step g .expire w.sys).map fun s => { w with sys := s }
  | .run =>
    if w.sys.stack = [.user] then
      let t := w.sys.currentRunningThread
      match P.code w.shared (w.threads t) with
      | .act shared next =>
        some { w with shared := shared, threads := Function.update w.threads t next }
      | .call op next => (Threads.step g (.call op) w.sys).map fun s =>
          { w with sys := s, threads := Function.update w.threads t next }
      | .ret => (Threads.step g .finish w.sys).map fun s => { w with sys := s }
    else
      (Threads.step g .exec w.sys).map fun s =>
        { w with sys := s, threads := P.launch w.sys w.threads }

/-- `main` has made some objects, and calls `t_start` with function 0. -/
def World.Opens (P : Program G L) (calls : List MainCall) (shared : G) (w : World G L) : Prop :=
  ∃ (cap : Capacity) (p : ℤ),
    (calls.foldlM mainCall (loaded cap)).bind (tStart 0 .null p) = some w.sys ∧
    w.shared = shared ∧ w.threads = fun _ => P.body 0 .null

/-- Each thread enters the function that it was forked with. -/
def EntersOwn : Tick → World G L → Prop := fun tick w =>
  tick = .run → w.sys.stack = [.start] → w.sys.userFunction = w.sys.current.func

instance (tick : Tick) (w : World G L) : Decidable (EntersOwn tick w) :=
  inferInstanceAs (Decidable (_ → _ → _))

/-- The timer does not fire in the epilogue of `incrementStack`. -/
def SparesEpilogue : Tick → World G L → Prop := fun tick w =>
  tick = .expire → phase w.sys.stack ≠ .epilogue

instance (tick : Tick) (w : World G L) : Decidable (SparesEpilogue tick w) :=
  inferInstanceAs (Decidable (_ → _))

/-- A thread can lose the processor: it is not in its own code with SIGVTALRM blocked. -/
def State.Switches (s : State) : Prop := s.blocked = false ∨ s.stack ≠ [.user]

/-- No thread calls `t_join`, `semaphore_create` or `Semaphore_destroy`. -/
def Program.Plain (P : Program G L) : Prop :=
  ∀ shared place op next, P.code shared place = .call op next → op.plain = true

end Program

section Calling

/-! The routine that a thread has called and not begun to execute. -/

namespace State

def calling (s : State) (t : Tid) : Option Op :=
  match s.point t with
  | [.enter op, .user] => some op
  | _ => none

end State

variable {g : Grain} {s s' : State} {m : Move} {t : Tid} {op : Op} {f : Frame} {k : List Frame}

theorem calling_iff : s.calling t = some op ↔ s.point t = [.enter op, .user] := by
  unfold State.calling
  split
  · rename_i heq
    simp [heq]
  · rename_i hnot
    simpa using fun heq => hnot op heq

theorem calling_none : s.calling t = none ↔ ∀ op, s.point t ≠ [.enter op, .user] := by
  simp only [Option.eq_none_iff_forall_ne_some, ne_eq, calling_iff]

theorem calling_congr {u : Tid} (h : s'.point u = s.point t) : s'.calling u = s.calling t := by
  simp only [State.calling, h]

/-- A thread that does not execute does not begin a routine. -/
theorem Trans.calling_kept (h : Trans g s m s') (hl : Lives s)
    (hidle : t = s.currentRunningThread → ¬ s.Executes m) : s'.calling t = s.calling t := by
  have hnew : s.point t = [] → (s'.point t = [] ∨ s'.point t = [.start]) →
      s'.calling t = s.calling t := by
    intro hnil hpoint
    have hafter : s'.calling t = none := by
      rw [calling_none]
      rcases hpoint with hpoint | hpoint <;> simp [hpoint]
    rw [hafter, calling_none.mpr (by simp [hnil])]
  by_cases ht : entries t s.hist = []
  · rcases h.point hl.regular.parked t with
      hsame | ⟨hcur, hexec⟩ | ⟨hstarts, hpoint⟩ | ⟨hid, hpoint⟩
    · exact calling_congr hsame
    · exact absurd hexec (hidle hcur)
    · refine hnew (by_contra fun hne => ?_) (Or.inr hpoint)
      rcases hl.starts.entered t hne with hmem | hentered
      · exact (hl.starts.flag t hmem).1 hstarts.flag
      · exact hentered ht
    · refine hnew (by_contra fun hne => ?_) (Or.inl hpoint)
      rcases hl.starts.entered t hne with hmem | hentered
      · exact (hl.starts.unmade t (hid ▸ lt_next _)).2.2 (Or.inr hmem)
      · exact hentered ht
  · exact calling_congr (h.point_kept hl.regular hl.starts ht hidle)

/-- A step that leaves the processor to the thread leaves it at `f`. -/
theorem calling_top (hstack : s'.stack = f :: k) (hf : f.isTimer = false)
    (hf' : f.isSystem = false) (hnot : ∀ op, f :: k ≠ [.enter op, .user]) :
    s'.calling s'.currentRunningThread = none := by
  have hbody : body s'.stack = f :: k := by rw [hstack, body_own hf hf']
  rw [calling_none, State.point_current (by rw [hbody]; exact List.cons_ne_nil f k), hbody]
  exact hnot

/-- A step that takes the processor from the thread leaves it at its context. -/
theorem calling_saved (hstack : s'.stack = [f]) (hf : f.isSystem = true) (hf' : f.isTimer = false)
    (hcontext : ∀ op, body ((s'.tcb t).context.getD []) ≠ [.enter op, .user]) :
    s'.calling t = none := by
  rw [calling_none, State.point_of_nil (by simp [hstack, body, hf, hf'])]
  exact hcontext

theorem Control.calling_exec {b : Bool} {es : List Event} (h : Control s .exec k b es)
    (hs : WellShaped s.stack) (hexec : s.Executes .exec) (hstack' : s'.stack = k)
    (hcur : s'.currentRunningThread = s.currentRunningThread) :
    s'.calling s.currentRunningThread = none := by
  rw [← hcur]
  cases h with
  | nullReturn _ _ hstack | ret _ _ hstack | waitedNull _ hstack =>
    rw [hstack] at hs
    rcases hs.below_inner rfl with rfl | ⟨tid, -, rfl⟩ | ⟨c, -, rfl⟩ <;>
      exact calling_top hstack' rfl rfl (by simp)
  | resumed _ hstack | handled _ hstack => cases (hexec.top hstack).1
  | sitBottom _ hstack | idle _ hstack => cases (hexec.top hstack).2
  | joinDone | waitLock | waitNull | sigNone | sigEmpty | acquire | forked | enable | joined
  | waitedLock | spinBusy | spinFree | start | wakeSkip | wakeHit | wakeEnd | testHit | testMiss
  | take => exact calling_top hstack' rfl rfl (by simp)

/-- A thread that executes begins no routine that its own code has called. -/
theorem Trans.calling_exec (h : Trans g s .exec s') (hs : WellShaped s.stack)
    (hexec : s.Executes .exec) : s'.calling s.currentRunningThread = none := by
  cases h with
  | control m k b es h => exact h.calling_exec hs hexec rfl rfl
  | suspend q f k next store h =>
    cases h with
    | timer k hstack => cases (hexec.top hstack).1
    | yield | wait | pass =>
      exact calling_saved rfl rfl rfl (by simp [body, Frame.isTimer, Frame.isSystem])
  | join | exit | leave =>
    exact calling_saved rfl rfl rfl (by simp [body, Frame.isTimer, Frame.isSystem])
  | fork _ _ _ _ _ _ _ _ _ _ _ _ hk =>
    rcases hk with ⟨-, rfl, -⟩ | ⟨-, rfl, -⟩ <;>
      exact calling_top rfl rfl rfl (by simp)
  | dispatchNew _ _ _ _ hstack | dispatchOld _ _ _ _ _ hstack =>
    cases (hexec.top hstack).2
  | unlock | lock | sigWake | semWake | semValue | semFree | newLock | newCond | newSem | record
  | insertWhole | insertCall | inserting | inserted | counted =>
    exact calling_top rfl rfl rfl (by simp)

end Calling

section Permits

/-! The permits of a semaphore: its value, less its waiters. -/

namespace State

def permits (s : State) (i : SemId) : ℤ := (s.semaphores i).getD 0 - s.semaphoreWaiters i

end State

/-- What a routine adds to the permits of a semaphore when it is executed. -/
def Op.posts (i : SemId) (op : Op) : ℤ :=
  if op = .semaphoreV i then 1 else if op = .semaphoreP i then -1 else 0

variable {g : Grain} {s s' : State} {m : Move} {t : Tid} {f : Frame} {k : List Frame}

/-- What the step adds to the permits of a semaphore. -/
def State.posts (s : State) (i : SemId) : Move → ℤ
  | .exec => match s.stack with
    | .enter op :: _ => op.posts i
    | _ => 0
  | _ => 0

theorem permits_eq {i : SemId} {v w : ℤ} (hsem : s.semaphores i = some v)
    (hcount : s.counter (.sem i) = w) : s.permits i = v - w := by
  rw [State.permits, hsem, State.semaphoreWaiters, hcount, Option.getD_some]

theorem posts_eq {i : SemId} {op : Op} (hstack : s.stack = .enter op :: k) :
    s.posts i .exec = op.posts i := by
  simp only [State.posts, hstack]

/-- At these program points no step changes the permits of a semaphore. -/
theorem posts_zero {i : SemId} (hstack : s.stack = f :: k)
    (hf : ∀ op, f = .enter op → op.posts i = 0) : s.posts i m = 0 := by
  cases m with
  | exec =>
    rw [State.posts, hstack]
    cases f with
    | enter op => exact hf op rfl
    | _ => rfl
  | _ => rfl

theorem Control.posts {b : Bool} {es : List Event} (h : Control s m k b es) (i : SemId) :
    s.posts i m = 0 := by
  cases h with
  | expire | call | finish => rfl
  | nullReturn op k hstack hop =>
    refine posts_zero hstack fun op' heq => ?_
    cases heq
    cases hop <;> rfl
  | enable f k hstack hf =>
    refine posts_zero hstack fun op heq => ?_
    rcases hf with rfl | rfl | rfl <;> cases heq
  | joinDone _ _ hstack | waitLock _ _ _ hstack | waitNull _ _ hstack | sigNone _ _ _ _ hstack
  | sigEmpty _ _ _ _ _ hstack | acquire _ _ hstack | ret _ _ hstack | forked _ _ hstack
  | joined _ _ hstack | waitedNull _ hstack | waitedLock _ _ hstack | spinBusy _ _ _ hstack
  | spinFree _ _ hstack | resumed _ hstack | handled _ hstack | start _ hstack
  | wakeSkip _ _ _ hstack | wakeHit _ _ _ hstack | wakeEnd _ _ hstack | testHit _ _ _ hstack
  | testMiss _ _ _ hstack | take _ _ _ hstack | sitBottom _ hstack | idle _ hstack =>
    exact posts_zero hstack (by simp [Op.posts])

/-- Only `Semaphore_V` and `Semaphore_P` change the permits of a semaphore, whether or
not it has waiters. -/
theorem Trans.permits (h : Trans g s m s') (i : SemId)
    (hplain : ∀ op k, s.stack = .enter op :: k → op.plain = true) :
    s'.permits i = s.permits i + s.posts i m := by
  have hsame : ∀ {f : Frame} {k : List Frame}, s.stack = f :: k →
      (∀ op, f = .enter op → op.posts i = 0) → s'.semaphores i = s.semaphores i →
      s'.counter (.sem i) = s.counter (.sem i) → s'.permits i = s.permits i + s.posts i m := by
    intro f k hstack hf hsem hcount
    rw [posts_zero hstack hf, State.permits, State.permits, State.semaphoreWaiters, hsem, hcount,
      Int.add_zero, State.semaphoreWaiters]
  have hchange : ∀ {op : Op} {k : List Frame} {v v' n : ℤ}, s.stack = .enter op :: k →
      m = .exec → s.semaphores i = some v → s'.semaphores i = some v' →
      s'.counter (.sem i) = n → v' - n = v - s.counter (.sem i) + op.posts i →
      s'.permits i = s.permits i + s.posts i m := by
    rintro op k v v' n hstack rfl hsem hsem' hcount hdiff
    rw [posts_eq hstack, permits_eq hsem rfl, permits_eq hsem' hcount, hdiff]
  cases h with
  | control m k b es h => rw [h.posts, Int.add_zero]; rfl
  | suspend q f k next store h =>
    cases h with
    | yield _ hstack | timer _ hstack | wait _ _ hstack =>
      exact hsame hstack (by simp [Op.posts]) rfl (by simp)
    | pass j v k hstack hsem =>
      by_cases hj : j = i
      · subst hj
        refine hchange hstack rfl hsem hsem (Function.update_self ..) ?_
        simp only [Op.posts, reduceCtorEq, if_false, if_true]
        omega
      · exact hsame hstack (by simp [Op.posts, hj]) rfl (by simp [Ne.symm hj])
  | semWake j k v t store store' hstack hsem =>
    by_cases hj : j = i
    · subst hj
      refine hchange (n := s.counter (.sem j) - 1) hstack rfl hsem hsem (by simp) ?_
      simp only [Op.posts, if_true]
      omega
    · exact hsame hstack (by simp [Op.posts, hj]) rfl (by simp [Ne.symm hj])
  | semValue op j k v v' hstack hsem hop =>
    by_cases hj : j = i
    · subst hj
      refine hchange hstack rfl hsem (Function.update_self ..) rfl ?_
      rcases hop with ⟨rfl, -, rfl⟩ | ⟨rfl, -, rfl⟩ <;>
        simp only [Op.posts, reduceCtorEq, if_false, if_true] <;> omega
    · refine hsame hstack ?_ (by simp [Ne.symm hj]) rfl
      rcases hop with ⟨rfl, -⟩ | ⟨rfl, -⟩ <;> simp [Op.posts, hj]
  | semFree _ _ _ hstack | newSem _ _ hstack => cases hplain _ _ hstack
  | fork _ _ _ _ _ _ _ hstack | join _ _ _ hstack | sigWake _ _ _ _ _ _ _ _ hstack
  | newLock _ hstack | newCond _ _ hstack | exit _ _ hstack | unlock _ _ _ hstack
  | lock _ _ _ hstack | leave _ hstack | record _ _ hstack | insertWhole _ _ _ _ _ hstack
  | insertCall _ _ _ _ _ _ hstack | inserting _ _ _ _ _ _ _ _ _ hstack
  | inserted _ _ _ _ _ _ _ hstack | counted _ _ _ _ _ _ hstack
  | dispatchNew _ _ _ _ hstack | dispatchOld _ _ _ _ _ hstack =>
    exact hsame hstack (by simp [Op.posts]) rfl (by simp)

/-- Who comes to wait at a semaphore has called `Semaphore_P` on it. -/
theorem Trans.blocks (h : Trans g s m s') {i : SemId}
    (hhist : s'.hist = .inserted (.sem i) t :: s.hist) :
    m = .exec ∧ ∃ k, s.stack = .enter (.semaphoreP i) :: k := by
  cases h with
  | suspend q f k next store h =>
    cases h with
    | pass j v k hstack =>
      simp only [List.cons.injEq, Event.inserted.injEq, QRef.sem.injEq, and_true] at hhist
      exact ⟨rfl, k, hhist.1 ▸ hstack⟩
    | _ => simp at hhist
  | control m k b es h => cases h <;> simp at hhist
  | _ => simp at hhist

end Permits

end UserThreads.Threads
