import UserThreads.Threads
import UserThreads.Runs

/-!
The routines of `THREAD.C` and the machine that executes them. A routine runs
from its first statement up to the next program point at which the timer can
fire or control leaves the thread; what lies between runs with SIGVTALRM
blocked. A step is `none` where the source has no defined result: a write
outside a table, a NULL or freed pointer, a context that is no longer there.
Allocation of nodes, queues and tcbs succeeds.
-/
namespace UserThreads.Threads

open LinkedCells Queue

namespace State

variable (s : State)

def disableTimer : State := { s with blocked := true }

def enableTimer : State := { s with blocked := false }

def goto (k : List Frame) : State := { s with stack := k }

def log (e : Event) : State := { s with hist := e :: s.hist }

def setTcb (t : Tid) (b : Tcb) : State := { s with tcb := Function.update s.tcb t b }

/-- `setjmp(currentRunningThread->context)`; `k` is where it returns again. -/
def setjmp (k : List Frame) : State :=
  s.setTcb s.currentRunningThread { s.current with context := some k }

/-- `q_insert` and the increment of the counter kept beside the queue. -/
def enqueue (q : QRef) (t : Tid) : Option State := do
  guard (s.cap.hasSlot q)
  let store ← s.store.qInsert q s.fresh t
  some { s with store := store, fresh := s.fresh + 1,
                counter := Function.update s.counter q (s.counter q + 1),
                hist := .inserted q t :: s.hist }

/-- `q_remove` and the decrement of the counter kept beside the queue. The
tcb returned is used at once, so a NULL is not allowed. -/
def dequeue (q : QRef) : Option (Tid × State) := do
  guard (s.cap.hasSlot q)
  let (obj, store) ← s.store.qRemove q
  let t ← obj
  some (t, { s with store := store,
                    counter := Function.update s.counter q (s.counter q - 1),
                    hist := .removed q t :: s.hist })

end State

/-- The scan `for(y=n-1;y>-1;y--)` for a counter that is not 0. -/
def scan (counter : ℤ → ℤ) : ℕ → Option ℤ
  | 0 => none
  | n + 1 => if counter n ≠ 0 then some n else scan counter n

/-- The condition whose `t_wait` a `lock_release` returns to, if any. -/
def callerWait : List Frame → Option CondId
  | .waiting c :: _ => some c
  | _ => none

/-- A `Lock` passed as `any_ptr`. -/
def lockPtr : Option LockId → AnyPtr
  | none => .null
  | some l => .lock l

section Routines

/-! The argument `k` is the rest of the caller's stack. -/

variable (k : List Frame) (s : State)

def tFork (f : ThreadFunc) (v : AnyPtr) (priority : ℤ) : Option State := do
  let s := s.disableTimer
  let tid := s.gThreadID + 1
  let s := { s with gThreadID := tid }
  let s := s.setTcb tid { func := f, arg := v, priority := priority, flag := 1 }
  let s := s.log (.forked tid f v priority)
  let s ← s.enqueue (.ready priority) tid
  if s.current.priority ≠ -1 ∧ s.current.priority < priority then
    some (s.goto (.enter .tYield :: .forked tid :: k))
  else
    some (s.enableTimer.goto (.ret (.int tid) :: k))

def tJoin (tid : Tid) : State :=
  let s := s.disableTimer
  if tid ∈ s.exitedThreadIDs then
    ((s.log (.joined s.currentRunningThread tid)).enableTimer).goto (.ret .void :: k)
  else
    let s := s.setjmp (.joined tid :: k)
    let s := s.setTcb s.currentRunningThread { s.current with flag := 0, waitingForTid := tid }
    let slot := if s.waitingIndex < 50 then s.waitingIndex else 0
    { s with tcbWaiting := Function.update s.tcbWaiting slot (some s.currentRunningThread),
             waitingIndex := slot + 1, stack := [.sched] }

def lockRelease (l : LockId) : Option State := do
  let s := s.disableTimer
  let _ ← s.shared l
  let s := { s with shared := Function.update s.shared l (some 0) }
  let s := s.log (.released s.currentRunningThread l (callerWait k))
  some (s.enableTimer.goto (.released :: k))

def timerHandler : Option State := do
  let s := s.disableTimer
  let s := s.setjmp (.resumed :: k)
  let s ← s.enqueue (.ready s.current.priority) s.currentRunningThread
  some (s.goto [.sitBottom])

def tYield : Option State := do
  let s := s.disableTimer
  let s := s.setjmp (.yielded :: k)
  let s ← s.enqueue (.ready s.current.priority) s.currentRunningThread
  some (s.goto [.sched])

/-- `t_wait` up to and including the release of the lock. -/
def tWait (c : CondId) (lock : Option LockId) : State :=
  match lock with
  | some l => s.goto (.enter (.lockRelease l) :: .waiting c :: k)
  | none => s.goto (.waiting c :: k)

/-- The rest of `t_wait`, from `disableTimer`. -/
def tWaitBlock (c : CondId) : Option State := do
  let s := s.disableTimer
  let s := s.setjmp (.waited :: k)
  let s ← s.enqueue (.cond c s.current.priority) s.currentRunningThread
  some (s.goto [.sched])

/-- `t_wait` after its `setjmp` has returned again. -/
def tWaitResume : Option State :=
  match s.current.arg with
  | .null => some (s.goto k)
  | .lock l => some (s.goto (.spin l :: k))
  | .data _ => none

def tSig (c : CondId) (lock : Option LockId) : Option State := do
  let s := s.disableTimer
  let _ ← s.conditions c
  guard (c < s.cap.conditions)
  match scan (s.conditionWaiters c) 128 with
  | none => some (s.enableTimer.goto (.ret .void :: k))
  | some i =>
    let empty ← s.store.qIsEmpty (.cond c i)
    if empty then
      some (s.enableTimer.goto (.ret .void :: k))
    else
      let (t, s) ← s.dequeue (.cond c i)
      let s := s.setTcb t { s.tcb t with arg := lockPtr lock }
      let s ← s.enqueue (.ready (s.tcb t).priority) t
      some (s.enableTimer.goto (.ret .void :: k))

/-- Control leaves the thread's frames for good. -/
def abandon : State := s.setTcb s.currentRunningThread { s.current with context := none }

def tExit : State := ((abandon s).log (.ended s.currentRunningThread)).goto [.sched]

def semaphoreP (i : SemId) : Option State := do
  let s := s.disableTimer
  let value ← s.semaphores i
  if 0 < value then
    let s := { s with semaphores := Function.update s.semaphores i (some (value - 1)) }
    some (s.enableTimer.goto (.ret .void :: k))
  else
    let s := s.setjmp (.passed :: k)
    let s ← s.enqueue (.sem i) s.currentRunningThread
    some (s.goto [.sched])

/-- The waiter woken by `Semaphore_V` goes to the level of the caller. -/
def semaphoreV (i : SemId) : Option State := do
  let s := s.disableTimer
  let value ← s.semaphores i
  guard (s.cap.hasSlot (.sem i))
  if 0 < s.semaphoreWaiters i then
    let (t, s) ← s.dequeue (.sem i)
    let s ← s.enqueue (.ready s.current.priority) t
    some (s.enableTimer.goto (.ret .void :: k))
  else
    let s := { s with semaphores := Function.update s.semaphores i (some (value + 1)) }
    some (s.enableTimer.goto (.ret .void :: k))

/-- A NULL argument is reported and the routine returns at once. -/
def semaphoreDestroy (sem : Option SemId) : Option State := do
  let s := s.disableTimer
  match sem with
  | none => some (s.goto k)
  | some i =>
    let _ ← s.semaphores i
    let s := { s with semaphores := Function.update s.semaphores i none }
    some (s.enableTimer.goto (.ret .void :: k))

def newLock : State :=
  { s with shared := Function.update s.shared s.lockCount (some 0),
           lockCount := s.lockCount + 1 }

/-- The queues `waiters[0..n-1]` of a condition. -/
def condQueues (c : CondId) (store : Store QRef Tid) : ℕ → Store QRef Tid
  | 0 => store
  | n + 1 => (condQueues c store n).qCreate (.cond c n)

def newCond (lock : Option LockId) : Option State := do
  guard (s.conditionID < s.cap.conditions)
  some { s with store := condQueues s.conditionID s.store 128,
                conditions := Function.update s.conditions s.conditionID (some ⟨lock⟩),
                conditionID := s.conditionID + 1 }

def newSem (count : ℤ) : State :=
  { s with store := s.store.qCreate (.sem (s.semaphoreID + 1)),
           semaphores := Function.update s.semaphores (s.semaphoreID + 1) (some count),
           semaphoreID := s.semaphoreID + 1 }

/-- When `malloc` fails the routine reports it and returns NULL at once. -/
def lockCreate (mem : Bool) : State :=
  if mem then (newLock s.disableTimer).enableTimer.goto (.ret (.lock s.lockCount) :: k)
  else s.disableTimer.goto k

def condCreate (lock : Option LockId) (mem : Bool) : Option State :=
  if mem then do
    let s' ← newCond s.disableTimer lock
    some (s'.enableTimer.goto (.ret (.cond s.conditionID) :: k))
  else some (s.disableTimer.goto k)

def semaphoreCreate (count : ℤ) (mem : Bool) : State :=
  if mem then
    (newSem s.disableTimer count).enableTimer.goto (.ret (.sem (s.semaphoreID + 1)) :: k)
  else s.disableTimer.goto k

/-- `incrementStack` up to the call of `userFunction`. -/
def incrementStack : State :=
  let s := { s with userFunction := s.current.func }
  (s.enableTimer.log (.started s.currentRunningThread)).goto [.start]

/-- `Scheduler` once a thread has been chosen: start it, or resume its context. -/
def dispatch (t : Tid) : Option State :=
  let s := { s with currentRunningThread := t }
  if s.current.flag = 1 then
    let s := { s with threadCount := s.threadCount + 1 }
    some (incrementStack (s.setTcb t { s.current with flag := 0 }))
  else
    s.current.context.map s.goto

/-- `Scheduler` from the `longjmp` on `schedContext`. -/
def scheduler : Option State := do
  let s := s.disableTimer
  match scan s.threadLevelCount 128 with
  | none => some (s.goto [.done])
  | some y =>
    let (t, s) ← s.dequeue (.ready y)
    dispatch s t

/-- `tcbWaiting[i]->waitingForTid`; the tcbs allocated at the start wait for 0. -/
def joinTarget (i : ℕ) : Tid :=
  match s.tcbWaiting i with
  | none => 0
  | some t => (s.tcb t).waitingForTid

/-- The loop head of `incrementStack`'s wake loop, and the exit record after it. -/
def wake (i : ℕ) (waked : Bool) : Option State :=
  if i < 50 then
    if joinTarget s i ≠ 0 then some (s.goto [.wakeTest i waked])
    else some (s.goto [.wake (i + 1) waked])
  else if waked then some (s.goto [.leave])
  else do
    guard (s.exitedThreadIDs.length < s.cap.exited)
    some { s with exitedThreadIDs := s.exitedThreadIDs ++ [s.currentRunningThread],
                  stack := [.leave] }

def wakeTest (i : ℕ) (waked : Bool) : State :=
  if s.currentRunningThread = joinTarget s i then s.goto [.wakeTake i]
  else s.goto [.wake (i + 1) waked]

def wakeTake (i : ℕ) : Option State := do
  let t ← s.tcbWaiting i
  some (s.goto [.insert i t])

/-- One statement of `q_insert(pQueue[threadTcb->priority], threadTcb)`, called
with the timer possibly enabled, or the increment of the counter after it. -/
def inserting (pc : InsertPoint) (i : ℕ) (t : Tid) (p : ℤ) (a : Addr) : Option State :=
  match pc with
  | .tailNext => do
    let store ← s.store.setTailNext (.ready p) a
    some { s with store := store, stack := [.inserting .tail i t p a] }
  | .tail => do
    let store ← s.store.setTail (.ready p) a
    some { s with store := store, stack := [.inserting .noHead i t p a] }
  | .noHead => do
    let first ← s.store.noHead (.ready p)
    some (s.goto [.inserting (if first then .head else .numObj) i t p a])
  | .head => do
    let store ← s.store.setHead (.ready p) a
    some { s with store := store, stack := [.inserting .numObj i t p a] }
  | .numObj => do
    let store ← s.store.incNumObj (.ready p)
    some { s with store := store, hist := .inserted (.ready p) t :: s.hist,
                  stack := [.inserting .count i t p a] }
  | .count =>
    some { s with counter := Function.update s.counter (.ready p) (s.counter (.ready p) + 1),
                  stack := [.wake (i + 1) true] }

/-- The call of `q_insert` up to the test of `q->tail`. -/
def insertCall (i : ℕ) (t : Tid) : Option State := do
  let p := (s.tcb t).priority
  guard (s.cap.hasSlot (.ready p))
  let store ← s.store.newObj s.fresh t
  let linked ← store.hasTail (.ready p)
  some { s with store := store, fresh := s.fresh + 1,
                stack := [.inserting (if linked then .tailNext else .tail) i t p s.fresh] }

/-- The same insertion as one step. -/
def insertWhole (i : ℕ) (t : Tid) : Option State := do
  let s ← s.enqueue (.ready (s.tcb t).priority) t
  some (s.goto [.wake (i + 1) true])

/-- The loop `while(lock->shared)` of `lock_acquire`. -/
def spin (l : LockId) : Option State := do
  let v ← s.shared l
  if v ≠ 0 then some s else some (s.goto (.spun l :: k))

/-- `lock_acquire` after its loop: block SIGVTALRM and store 1. -/
def lockAcquire (l : LockId) : Option State := do
  let _ ← s.shared l
  let s := s.disableTimer
  let s := { s with shared := Function.update s.shared l (some 1) }
  some ((s.log (.acquired s.currentRunningThread l)).goto (.ret .void :: k))

end Routines

/-- Whether the wake loop's `q_insert` is executed statement by statement or
each call of a routine is one step. -/
inductive Grain
  | statement
  | routine
deriving DecidableEq

inductive Move
  /-- SIGVTALRM is delivered -/
  | expire
  /-- the thread's code calls a routine -/
  | call (op : Op)
  /-- the thread's function returns -/
  | finish
  /-- the running thread executes up to the next program point -/
  | exec
deriving DecidableEq

def enter (op : Op) (k : List Frame) (s : State) : Option State :=
  match op with
  | .tFork f v priority => tFork k s f v priority
  | .tJoin tid => some (tJoin k s tid)
  | .tYield => tYield k s
  | .tWait c lock => some (tWait k s c lock)
  | .tSig c _ lock => tSig k s c lock
  | .tExit _ => some (tExit s)
  | .lockAcquire l => some (s.goto (.spin l :: k))
  | .lockRelease l => lockRelease k s l
  | .lockCreate mem => some (lockCreate k s mem)
  | .condCreate lock mem => condCreate k s lock mem
  | .semaphoreCreate count mem => some (semaphoreCreate k s count mem)
  | .semaphoreP i => semaphoreP k s i
  | .semaphoreV i => semaphoreV k s i
  | .semaphoreDestroy sem => semaphoreDestroy k s sem

/-- Execute from the program point on top of the stack. -/
def exec (g : Grain) (s : State) : Option State :=
  match s.stack with
  | [] => none
  | f :: k =>
    match f with
    | .user => none
    | .done => none
    | .enter op => enter op k s
    | .ret _ => some (s.goto k)
    | .forked tid => some (s.enableTimer.goto (.ret (.int tid) :: k))
    | .yielded => some (s.disableTimer.enableTimer.goto (.ret .void :: k))
    | .joined tid =>
      some ((s.log (.joined s.currentRunningThread tid)).enableTimer.goto (.ret .void :: k))
    | .waited => tWaitResume k s
    | .passed => some (s.disableTimer.enableTimer.goto (.ret .void :: k))
    | .spin l => spin k s l
    | .spun l => lockAcquire k s l
    | .released => some (s.enableTimer.goto (.ret .void :: k))
    | .waiting c => tWaitBlock k s c
    | .handler => timerHandler k s
    | .resumed => some (s.disableTimer.enableTimer.goto (.handled :: k))
    | .handled => some (s.enableTimer.goto k)
    | .start =>
      some ((s.log (.entered s.currentRunningThread s.userFunction s.current.arg)).goto [.user])
    | .wake i waked => wake s i waked
    | .wakeTest i waked => some (wakeTest s i waked)
    | .wakeTake i => wakeTake s i
    | .insert i t =>
      match g with
      | .statement => insertCall s i t
      | .routine => insertWhole s i t
    | .inserting pc i t p a =>
      match g with
      | .statement => inserting s pc i t p a
      | .routine => none
    | .leave => some ((abandon s).goto [.sitBottom])
    | .sitBottom => some (s.disableTimer.goto [.sched])
    | .sched => scheduler s

/-- One move. The timer fires only while SIGVTALRM is not blocked. -/
def step (g : Grain) (m : Move) (s : State) : Option State :=
  match m with
  | .expire => if s.blocked ∨ s.stack = [] then none else some (s.goto (.handler :: s.stack))
  | .call op =>
    if s.stack = [.user] then some (s.goto [.enter op, .user]) else none
  | .finish =>
    if s.stack = [.user] then
      some ((s.log (.ended s.currentRunningThread)).goto [.wake 0 false])
    else none
  | .exec => exec g s

/-- What `main` may create before it calls `t_start`. -/
inductive MainCall
  | lock
  | cond (lock : Option LockId)
  | sem (count : ℤ)
deriving DecidableEq

def mainCall (s : State) : MainCall → Option State
  | .lock => some (newLock s)
  | .cond lock => newCond s lock
  | .sem count => some (newSem s count)

/-- The globals of `THREAD.C` when the program is loaded. -/
def loaded (cap : Capacity) : State where
  cap := cap
  store := ⟨fun _ => none, fun _ => none⟩
  fresh := 0
  counter := fun _ => 0
  tcb := fun _ => {}
  currentRunningThread := 0
  stack := []
  blocked := false
  userFunction := 0
  shared := fun _ => none
  conditions := fun _ => none
  semaphores := fun _ => none
  tcbWaiting := fun _ => none
  waitingIndex := 0
  exitedThreadIDs := []
  gThreadID := 0
  lockCount := 0
  conditionID := 0
  semaphoreID := 0
  threadCount := 0
  hist := []

/-- The queues `pQueue[0..n-1]`. -/
def readyQueues (store : Store QRef Tid) : ℕ → Store QRef Tid
  | 0 => store
  | n + 1 => (readyQueues store n).qCreate (.ready n)

/-- `t_start` up to its call of `Scheduler`, which starts with the timer
blocked: the ready queues are made, `currentRunningThread` is a tcb of
priority -1, and the first thread is forked. -/
def tStart (f : ThreadFunc) (v : AnyPtr) (priority : ℤ) (s : State) : Option State := do
  let s := { s with store := readyQueues s.store 128 }
  let s ← tFork [] s f v priority
  some (s.disableTimer.goto [.sched])

/-- The states in which `Scheduler` begins, for any creations by `main` and any
first thread. -/
def Initial (s : State) : Prop :=
  ∃ (cap : Capacity) (calls : List MainCall) (f : ThreadFunc) (v : AnyPtr) (priority : ℤ),
    (calls.foldlM mainCall (loaded cap)).bind (tStart f v priority) = some s

end UserThreads.Threads
