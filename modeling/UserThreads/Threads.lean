import UserThreads.Queue

/-!
The data of the thread system (`THREADS.H` and the globals of `THREAD.C`).
A tcb is named by its tid, a lock, condition or semaphore by its creation
number, and a queue by the variable that points to it. The processor is a
stack of program points: the running thread executes the first one, and
`setjmp` saves the stack in the thread's tcb.

`hist` lists what has happened, the latest first. No routine reads it.
-/
namespace UserThreads.Threads

open LinkedCells Queue

abbrev Tid := ℤ
abbrev ThreadFunc := ℕ
abbrev LockId := ℕ
abbrev CondId := ℕ
abbrev SemId := ℕ

/-- `any_ptr`: NULL, a lock, or a pointer to something else. -/
inductive AnyPtr
  | null
  | lock (l : LockId)
  | data (n : ℕ)
deriving DecidableEq

/-- `pQueue[p]`, `waiters[p]` of a condition, and `waiters` of a semaphore. -/
inductive QRef
  | ready (p : ℤ)
  | cond (c : CondId) (p : ℤ)
  | sem (i : SemId)
deriving DecidableEq

/-- The sizes of `exitedThreadIDs`, `semaphoreWaiters` and `conditionWaiters`. -/
structure Capacity where
  exited : ℕ := 50
  semaphores : ℕ := 20
  conditions : ℕ := 50
deriving DecidableEq

/-- The counter kept beside a queue lies inside its table. -/
def Capacity.hasSlot (cap : Capacity) : QRef → Bool
  | .ready p => 0 ≤ p ∧ p < 128
  | .cond c p => c < cap.conditions ∧ 0 ≤ p ∧ p < 128
  | .sem i => i < cap.semaphores

/-- The calls a thread can make. `mem` is whether `malloc` succeeds. -/
inductive Op
  | tFork (f : ThreadFunc) (v : AnyPtr) (priority : ℤ)
  | tJoin (tid : Tid)
  | tYield
  | tWait (cond : CondId) (lock : Option LockId)
  | tSig (cond : CondId) (val : AnyPtr) (lock : Option LockId)
  | tExit (val : ℤ)
  | lockAcquire (lock : LockId)
  | lockRelease (lock : LockId)
  | lockCreate (mem : Bool)
  | condCreate (lock : Option LockId) (mem : Bool)
  | semaphoreCreate (count : ℤ) (mem : Bool)
  | semaphoreP (sem : SemId)
  | semaphoreV (sem : SemId)
  | semaphoreDestroy (sem : Option SemId)
deriving DecidableEq

/-- What a routine returns. -/
inductive Value
  | void
  | int (n : ℤ)
  | lock (l : LockId)
  | cond (c : CondId)
  | sem (i : SemId)
deriving DecidableEq

/-- The statements of `q_insert` after `if(q->tail)`, and the counter after it. -/
inductive InsertPoint
  | tailNext
  | tail
  | noHead
  | head
  | numObj
  | count
deriving DecidableEq

/-- Program points. Code between two of them runs with the timer blocked or
touches nothing that another thread can see. The points of `incrementStack`'s
wake loop carry its locals `i` and `waked` and the tcb in `threadTcb`. This does
not cover a preemption there: in the source these lie at one address for all
threads, and whatever runs next overwrites them (see `EpilogueWhole`). -/
inductive Frame
  /-- the thread's own code -/
  | user
  /-- a routine has been called and nothing of it executed -/
  | enter (op : Op)
  /-- a routine's last `enableTimer` is done, `return` is next -/
  | ret (v : Value)
  /-- `t_fork`: its `t_yield` has returned -/
  | forked (tid : Tid)
  /-- `t_yield`, `t_join`, `t_wait`, `Semaphore_P`: `setjmp` has returned again -/
  | yielded
  | joined (tid : Tid)
  | waited
  | passed
  /-- `lock_acquire`: at the test of the loop, and past it -/
  | spin (l : LockId)
  | spun (l : LockId)
  /-- `lock_release`: SIGVTALRM has been unblocked -/
  | released
  /-- `t_wait`: at `disableTimer` -/
  | waiting (c : CondId)
  /-- `timerHandler`: entered, resumed, and about to return -/
  | handler
  | resumed
  | handled
  /-- `incrementStack`: about to call `userFunction` -/
  | start
  /-- `incrementStack`: the loop head, the second test, the choice of the joiner,
  the call of `q_insert` and the statements inside it, the final `longjmp` -/
  | wake (i : ℕ) (waked : Bool)
  | wakeTest (i : ℕ) (waked : Bool)
  | wakeTake (i : ℕ)
  | insert (i : ℕ) (t : Tid)
  | inserting (pc : InsertPoint) (i : ℕ) (t : Tid) (p : ℤ) (a : Addr)
  | leave
  /-- `sitBottom` and `Scheduler`: at `disableTimer` after the `longjmp` -/
  | sitBottom
  | sched
  /-- `Scheduler` has returned to `t_start` -/
  | done
deriving DecidableEq

structure Tcb where
  func : ThreadFunc := 0
  arg : AnyPtr := .null
  priority : ℤ := -1
  flag : ℤ := 0
  waitingForTid : Tid := 0
  context : Option (List Frame) := none
deriving DecidableEq

inductive Event
  /-- `t_fork` has made the thread ready -/
  | forked (t : Tid) (f : ThreadFunc) (v : AnyPtr) (priority : ℤ)
  /-- `incrementStack` has stored the thread's function in `userFunction` -/
  | started (t : Tid)
  /-- the thread calls `userFunction`, which is `f`, on `v` -/
  | entered (t : Tid) (f : ThreadFunc) (v : AnyPtr)
  /-- the thread has returned from its function or called `t_exit` -/
  | ended (t : Tid)
  | inserted (q : QRef) (t : Tid)
  | removed (q : QRef) (t : Tid)
  /-- `lock_acquire` has stored 1, `lock_release` has stored 0, the latter
  possibly from inside `t_wait` on a condition -/
  | acquired (t : Tid) (l : LockId)
  | released (t : Tid) (l : LockId) (inWait : Option CondId)
  /-- `t_join(tid)` called by `t` is past its wait -/
  | joined (t tid : Tid)
deriving DecidableEq

/-- `Condition_t`; its `condID` is the number the condition is named by. -/
structure Condition where
  lock : Option LockId
deriving DecidableEq

structure State where
  cap : Capacity
  store : Store QRef Tid
  /-- the next address `malloc` answers with; freed addresses do not come back -/
  fresh : Addr
  /-- `threadLevelCount`, `conditionWaiters` and `semaphoreWaiters` -/
  counter : QRef → ℤ
  tcb : Tid → Tcb
  currentRunningThread : Tid
  stack : List Frame
  /-- SIGVTALRM is in the signal mask -/
  blocked : Bool
  userFunction : ThreadFunc
  /-- `lock->shared` -/
  shared : LockId → Option ℤ
  conditions : CondId → Option Condition
  /-- `sem->value` -/
  semaphores : SemId → Option ℤ
  tcbWaiting : ℕ → Option Tid
  waitingIndex : ℕ
  exitedThreadIDs : List Tid
  gThreadID : Tid
  lockCount : ℕ
  conditionID : ℕ
  semaphoreID : ℕ
  threadCount : ℕ
  hist : List Event

namespace State

abbrev threadLevelCount (s : State) (p : ℤ) : ℤ := s.counter (.ready p)
abbrev conditionWaiters (s : State) (c : CondId) (p : ℤ) : ℤ := s.counter (.cond c p)
abbrev semaphoreWaiters (s : State) (i : SemId) : ℤ := s.counter (.sem i)

def current (s : State) : Tcb := s.tcb s.currentRunningThread

def contents (s : State) (q : QRef) : List Tid := s.store.contents q

end State

end UserThreads.Threads
