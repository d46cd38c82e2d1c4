import UserThreads.Routines

/-!
What a move can do, said once. `Control` lists the moves that change nothing
but the stack, the signal mask and the history; `Suspends` the four places
where a thread saves its context and enters a queue; `Trans` all moves, each
with the state it leads to. Every later invariant is a case analysis on these
relations and never looks into a routine again.
-/
namespace UserThreads.Threads

open LinkedCells Queue

variable {g : Grain} {s s' : State} {m : Move} {q : QRef} {t : Tid}

theorem of_guard {p : Prop} [Decidable p] {u : Unit}
    (h : (guard p : Option Unit) = some u) : p := by
  unfold guard at h
  split at h
  · assumption
  · cases h

theorem enqueue_spec (h : s.enqueue q t = some s') :
    s.cap.hasSlot q = true ∧ ∃ store, s.store.qInsert q s.fresh t = some store ∧
      s' = { s with store := store, fresh := s.fresh + 1,
                    counter := Function.update s.counter q (s.counter q + 1),
                    hist := .inserted q t :: s.hist } := by
  simp only [State.enqueue, Option.bind_eq_bind, Option.bind_eq_some_iff,
    Option.some.injEq] at h
  obtain ⟨_, hslot, store, hins, rfl⟩ := h
  exact ⟨of_guard hslot, store, hins, rfl⟩

theorem dequeue_spec (h : s.dequeue q = some (t, s')) :
    s.cap.hasSlot q = true ∧ ∃ store, s.store.qRemove q = some (some t, store) ∧
      s' = { s with store := store,
                    counter := Function.update s.counter q (s.counter q - 1),
                    hist := .removed q t :: s.hist } := by
  simp only [State.dequeue, Option.bind_eq_bind, Option.bind_eq_some_iff, Option.some.injEq,
    Prod.mk.injEq] at h
  obtain ⟨_, hslot, ⟨obj, store⟩, hrem, u, hobj, rfl, rfl⟩ := h
  cases hobj
  exact ⟨of_guard hslot, store, hrem, rfl⟩

/-- The four routines that save the context `f :: k` and put the running
thread into the queue `q`; `next` is where control goes. -/
inductive Suspends (s : State) : QRef → Frame → List Frame → Frame → Prop
  | yield (k : List Frame) (hstack : s.stack = .enter .tYield :: k) :
      Suspends s (.ready s.current.priority) .yielded k .sched
  | timer (k : List Frame) (hstack : s.stack = .handler :: k) :
      Suspends s (.ready s.current.priority) .resumed k .sitBottom
  | wait (c : CondId) (k : List Frame) (hstack : s.stack = .waiting c :: k) :
      Suspends s (.cond c s.current.priority) .waited k .sched
  | pass (i : SemId) (v : ℤ) (k : List Frame) (hstack : s.stack = .enter (.semaphoreP i) :: k)
      (hsem : s.semaphores i = some v) (hv : ¬ 0 < v) : Suspends s (.sem i) .passed k .sched

/-- The calls that return at once with the timer still blocked. -/
inductive NullReturn : Op → Prop
  | lock : NullReturn (.lockCreate false)
  | cond (lock : Option LockId) : NullReturn (.condCreate lock false)
  | sem (count : ℤ) : NullReturn (.semaphoreCreate count false)
  | destroy : NullReturn (.semaphoreDestroy none)

/-- The moves that only change the stack, the mask and the history: the new
stack, the new mask and what is added to the history. -/
inductive Control (s : State) : Move → List Frame → Bool → List Event → Prop
  | expire (hmask : s.blocked = false) (hstack : s.stack ≠ []) :
      Control s .expire (.handler :: s.stack) s.blocked []
  | call (op : Op) (hstack : s.stack = [.user]) :
      Control s (.call op) [.enter op, .user] s.blocked []
  | finish (hstack : s.stack = [.user]) :
      Control s .finish [.wake 0 false] s.blocked [.ended s.currentRunningThread]
  | joinDone (tid : Tid) (k : List Frame) (hstack : s.stack = .enter (.tJoin tid) :: k)
      (hexited : tid ∈ s.exitedThreadIDs) :
      Control s .exec (.ret .void :: k) false [.joined s.currentRunningThread tid]
  | waitLock (c : CondId) (l : LockId) (k : List Frame)
      (hstack : s.stack = .enter (.tWait c (some l)) :: k) :
      Control s .exec (.enter (.lockRelease l) :: .waiting c :: k) s.blocked []
  | waitNull (c : CondId) (k : List Frame) (hstack : s.stack = .enter (.tWait c none) :: k) :
      Control s .exec (.waiting c :: k) s.blocked []
  | sigNone (c : CondId) (val : AnyPtr) (lock : Option LockId) (k : List Frame)
      (hstack : s.stack = .enter (.tSig c val lock) :: k)
      (hscan : scan (s.conditionWaiters c) 128 = none) :
      Control s .exec (.ret .void :: k) false []
  | sigEmpty (c : CondId) (val : AnyPtr) (lock : Option LockId) (k : List Frame) (i : ℤ)
      (hstack : s.stack = .enter (.tSig c val lock) :: k)
      (hscan : scan (s.conditionWaiters c) 128 = some i)
      (hempty : s.store.qIsEmpty (.cond c i) = some true) :
      Control s .exec (.ret .void :: k) false []
  | acquire (l : LockId) (k : List Frame) (hstack : s.stack = .enter (.lockAcquire l) :: k) :
      Control s .exec (.spin l :: k) s.blocked []
  | nullReturn (op : Op) (k : List Frame) (hstack : s.stack = .enter op :: k)
      (hop : NullReturn op) : Control s .exec k true []
  | ret (v : Value) (k : List Frame) (hstack : s.stack = .ret v :: k) :
      Control s .exec k s.blocked []
  | forked (tid : Tid) (k : List Frame) (hstack : s.stack = .forked tid :: k) :
      Control s .exec (.ret (.int tid) :: k) false []
  | enable (f : Frame) (k : List Frame) (hstack : s.stack = f :: k)
      (hf : f = .yielded ∨ f = .passed ∨ f = .released) :
      Control s .exec (.ret .void :: k) false []
  | joined (tid : Tid) (k : List Frame) (hstack : s.stack = .joined tid :: k) :
      Control s .exec (.ret .void :: k) false [.joined s.currentRunningThread tid]
  | waitedNull (k : List Frame) (hstack : s.stack = .waited :: k) (harg : s.current.arg = .null) :
      Control s .exec k s.blocked []
  | waitedLock (l : LockId) (k : List Frame) (hstack : s.stack = .waited :: k)
      (harg : s.current.arg = .lock l) : Control s .exec (.spin l :: k) s.blocked []
  | spinBusy (l : LockId) (k : List Frame) (v : ℤ) (hstack : s.stack = .spin l :: k)
      (hshared : s.shared l = some v) (hv : v ≠ 0) :
      Control s .exec (.spin l :: k) s.blocked []
  | spinFree (l : LockId) (k : List Frame) (hstack : s.stack = .spin l :: k)
      (hshared : s.shared l = some 0) : Control s .exec (.spun l :: k) s.blocked []
  | resumed (k : List Frame) (hstack : s.stack = .resumed :: k) :
      Control s .exec (.handled :: k) false []
  | handled (k : List Frame) (hstack : s.stack = .handled :: k) : Control s .exec k false []
  | start (k : List Frame) (hstack : s.stack = .start :: k) :
      Control s .exec [.user] s.blocked
        [.entered s.currentRunningThread s.userFunction s.current.arg]
  | wakeSkip (i : ℕ) (waked : Bool) (k : List Frame) (hstack : s.stack = .wake i waked :: k)
      (hi : i < 50) (htarget : joinTarget s i = 0) :
      Control s .exec [.wake (i + 1) waked] s.blocked []
  | wakeHit (i : ℕ) (waked : Bool) (k : List Frame) (hstack : s.stack = .wake i waked :: k)
      (hi : i < 50) (htarget : joinTarget s i ≠ 0) :
      Control s .exec [.wakeTest i waked] s.blocked []
  | wakeEnd (i : ℕ) (k : List Frame) (hstack : s.stack = .wake i true :: k) (hi : ¬ i < 50) :
      Control s .exec [.leave] s.blocked []
  | testHit (i : ℕ) (waked : Bool) (k : List Frame) (hstack : s.stack = .wakeTest i waked :: k)
      (htarget : s.currentRunningThread = joinTarget s i) :
      Control s .exec [.wakeTake i] s.blocked []
  | testMiss (i : ℕ) (waked : Bool) (k : List Frame) (hstack : s.stack = .wakeTest i waked :: k)
      (htarget : s.currentRunningThread ≠ joinTarget s i) :
      Control s .exec [.wake (i + 1) waked] s.blocked []
  | take (i : ℕ) (t : Tid) (k : List Frame) (hstack : s.stack = .wakeTake i :: k)
      (hslot : s.tcbWaiting i = some t) : Control s .exec [.insert i t] s.blocked []
  | sitBottom (k : List Frame) (hstack : s.stack = .sitBottom :: k) :
      Control s .exec [.sched] true []
  | idle (k : List Frame) (hstack : s.stack = .sched :: k)
      (hscan : scan s.threadLevelCount 128 = none) : Control s .exec [.done] true []

/-- The effect of `q_insert` statement by statement on the store and the program point. -/
inductive Inserts (s : State) (i : ℕ) (t : Tid) (p : ℤ) (a : Addr) :
    InsertPoint → Store QRef Tid → InsertPoint → Prop
  | tailNext (store : Store QRef Tid) (h : s.store.setTailNext (.ready p) a = some store) :
      Inserts s i t p a .tailNext store .tail
  | tail (store : Store QRef Tid) (h : s.store.setTail (.ready p) a = some store) :
      Inserts s i t p a .tail store .noHead
  | noHead (first : Bool) (h : s.store.noHead (.ready p) = some first) :
      Inserts s i t p a .noHead s.store (if first then .head else .numObj)
  | head (store : Store QRef Tid) (h : s.store.setHead (.ready p) a = some store) :
      Inserts s i t p a .head store .numObj

/-- All moves, with the state each leads to. -/
inductive Trans (g : Grain) (s : State) : Move → State → Prop
  | control (m : Move) (k : List Frame) (b : Bool) (es : List Event) (h : Control s m k b es) :
      Trans g s m { s with stack := k, blocked := b, hist := es ++ s.hist }
  | suspend (q : QRef) (f : Frame) (k : List Frame) (next : Frame) (store : Store QRef Tid)
      (h : Suspends s q f k next) (hslot : s.cap.hasSlot q = true)
      (hins : s.store.qInsert q s.fresh s.currentRunningThread = some store) :
      Trans g s .exec { s with
        blocked := true, stack := [next], store := store, fresh := s.fresh + 1
        tcb := Function.update s.tcb s.currentRunningThread
          { s.current with context := some (f :: k) }
        counter := Function.update s.counter q (s.counter q + 1)
        hist := .inserted q s.currentRunningThread :: s.hist }
  | fork (f : ThreadFunc) (v : AnyPtr) (p : ℤ) (k k' : List Frame) (b : Bool)
      (store : Store QRef Tid) (hstack : s.stack = .enter (.tFork f v p) :: k)
      (hslot : s.cap.hasSlot (.ready p) = true)
      (hins : s.store.qInsert (.ready p) s.fresh (s.gThreadID + 1) = some store)
      (caller : Tcb) (hcaller : caller = Function.update s.tcb (s.gThreadID + 1)
        { func := f, arg := v, priority := p, flag := 1 } s.currentRunningThread)
      (hk : (caller.priority ≠ -1 ∧ caller.priority < p) ∧
          k' = .enter .tYield :: .forked (s.gThreadID + 1) :: k ∧ b = true ∨
        ¬ (caller.priority ≠ -1 ∧ caller.priority < p) ∧
          k' = .ret (.int (s.gThreadID + 1)) :: k ∧ b = false) :
      Trans g s .exec { s with
        blocked := b, stack := k', store := store, fresh := s.fresh + 1
        gThreadID := s.gThreadID + 1
        tcb := Function.update s.tcb (s.gThreadID + 1)
          { func := f, arg := v, priority := p, flag := 1 }
        counter := Function.update s.counter (.ready p) (s.counter (.ready p) + 1)
        hist := .inserted (.ready p) (s.gThreadID + 1) ::
          .forked (s.gThreadID + 1) f v p :: s.hist }
  | join (tid : Tid) (k : List Frame) (slot : ℕ) (hstack : s.stack = .enter (.tJoin tid) :: k)
      (hexited : tid ∉ s.exitedThreadIDs)
      (hslot : slot = if s.waitingIndex < 50 then s.waitingIndex else 0) :
      Trans g s .exec { s with
        blocked := true, stack := [.sched], waitingIndex := slot + 1
        tcb := Function.update s.tcb s.currentRunningThread
          { s.current with context := some (.joined tid :: k), flag := 0, waitingForTid := tid }
        tcbWaiting := Function.update s.tcbWaiting slot (some s.currentRunningThread) }
  | unlock (l : LockId) (k : List Frame) (v : ℤ) (hstack : s.stack = .enter (.lockRelease l) :: k)
      (hshared : s.shared l = some v) :
      Trans g s .exec { s with
        blocked := false, stack := .released :: k
        shared := Function.update s.shared l (some 0)
        hist := .released s.currentRunningThread l (callerWait k) :: s.hist }
  | lock (l : LockId) (k : List Frame) (v : ℤ) (hstack : s.stack = .spun l :: k)
      (hshared : s.shared l = some v) :
      Trans g s .exec { s with
        blocked := true, stack := .ret .void :: k
        shared := Function.update s.shared l (some 1)
        hist := .acquired s.currentRunningThread l :: s.hist }
  | sigWake (c : CondId) (val : AnyPtr) (lock : Option LockId) (k : List Frame) (i : ℤ)
      (t : Tid) (store store' : Store QRef Tid)
      (hstack : s.stack = .enter (.tSig c val lock) :: k)
      (hscan : scan (s.conditionWaiters c) 128 = some i)
      (hslot : s.cap.hasSlot (.cond c i) = true)
      (hrem : s.store.qRemove (.cond c i) = some (some t, store))
      (hslot' : s.cap.hasSlot (.ready (s.tcb t).priority) = true)
      (hins : store.qInsert (.ready (s.tcb t).priority) s.fresh t = some store') :
      Trans g s .exec { s with
        blocked := false, stack := .ret .void :: k, store := store', fresh := s.fresh + 1
        tcb := Function.update s.tcb t { s.tcb t with arg := lockPtr lock }
        counter := Function.update
          (Function.update s.counter (.cond c i) (s.counter (.cond c i) - 1))
          (.ready (s.tcb t).priority) (s.counter (.ready (s.tcb t).priority) + 1)
        hist := .inserted (.ready (s.tcb t).priority) t :: .removed (.cond c i) t :: s.hist }
  | semWake (i : SemId) (k : List Frame) (v : ℤ) (t : Tid) (store store' : Store QRef Tid)
      (hstack : s.stack = .enter (.semaphoreV i) :: k) (hsem : s.semaphores i = some v)
      (hcount : 0 < s.semaphoreWaiters i) (hslot : s.cap.hasSlot (.sem i) = true)
      (hrem : s.store.qRemove (.sem i) = some (some t, store))
      (hslot' : s.cap.hasSlot (.ready s.current.priority) = true)
      (hins : store.qInsert (.ready s.current.priority) s.fresh t = some store') :
      Trans g s .exec { s with
        blocked := false, stack := .ret .void :: k, store := store', fresh := s.fresh + 1
        counter := Function.update (Function.update s.counter (.sem i) (s.counter (.sem i) - 1))
          (.ready s.current.priority) (s.counter (.ready s.current.priority) + 1)
        hist := .inserted (.ready s.current.priority) t :: .removed (.sem i) t :: s.hist }
  | semValue (op : Op) (i : SemId) (k : List Frame) (v v' : ℤ)
      (hstack : s.stack = .enter op :: k) (hsem : s.semaphores i = some v)
      (hop : op = .semaphoreP i ∧ 0 < v ∧ v' = v - 1 ∨
        op = .semaphoreV i ∧ ¬ 0 < s.semaphoreWaiters i ∧ v' = v + 1) :
      Trans g s .exec { s with
        blocked := false, stack := .ret .void :: k
        semaphores := Function.update s.semaphores i (some v') }
  | semFree (i : SemId) (k : List Frame) (v : ℤ)
      (hstack : s.stack = .enter (.semaphoreDestroy (some i)) :: k)
      (hsem : s.semaphores i = some v) :
      Trans g s .exec { s with
        blocked := false, stack := .ret .void :: k
        semaphores := Function.update s.semaphores i none }
  | newLock (k : List Frame) (hstack : s.stack = .enter (.lockCreate true) :: k) :
      Trans g s .exec { s with
        blocked := false, stack := .ret (.lock s.lockCount) :: k
        shared := Function.update s.shared s.lockCount (some 0)
        lockCount := s.lockCount + 1 }
  | newCond (lock : Option LockId) (k : List Frame)
      (hstack : s.stack = .enter (.condCreate lock true) :: k)
      (hid : s.conditionID < s.cap.conditions) :
      Trans g s .exec { s with
        blocked := false, stack := .ret (.cond s.conditionID) :: k
        store := condQueues s.conditionID s.store 128
        conditions := Function.update s.conditions s.conditionID (some ⟨lock⟩)
        conditionID := s.conditionID + 1 }
  | newSem (count : ℤ) (k : List Frame)
      (hstack : s.stack = .enter (.semaphoreCreate count true) :: k) :
      Trans g s .exec { s with
        blocked := false, stack := .ret (.sem (s.semaphoreID + 1)) :: k
        store := s.store.qCreate (.sem (s.semaphoreID + 1))
        semaphores := Function.update s.semaphores (s.semaphoreID + 1) (some count)
        semaphoreID := s.semaphoreID + 1 }
  | exit (val : ℤ) (k : List Frame) (hstack : s.stack = .enter (.tExit val) :: k) :
      Trans g s .exec { s with
        stack := [.sched], hist := .ended s.currentRunningThread :: s.hist
        tcb := Function.update s.tcb s.currentRunningThread { s.current with context := none } }
  | leave (k : List Frame) (hstack : s.stack = .leave :: k) :
      Trans g s .exec { s with
        stack := [.sitBottom]
        tcb := Function.update s.tcb s.currentRunningThread { s.current with context := none } }
  | record (i : ℕ) (k : List Frame) (hstack : s.stack = .wake i false :: k) (hi : ¬ i < 50)
      (hcap : s.exitedThreadIDs.length < s.cap.exited) :
      Trans g s .exec { s with
        stack := [.leave]
        exitedThreadIDs := s.exitedThreadIDs ++ [s.currentRunningThread] }
  | insertWhole (i : ℕ) (t : Tid) (k : List Frame) (store : Store QRef Tid)
      (hgrain : g = .routine) (hstack : s.stack = .insert i t :: k)
      (hslot : s.cap.hasSlot (.ready (s.tcb t).priority) = true)
      (hins : s.store.qInsert (.ready (s.tcb t).priority) s.fresh t = some store) :
      Trans g s .exec { s with
        stack := [.wake (i + 1) true], store := store, fresh := s.fresh + 1
        counter := Function.update s.counter (.ready (s.tcb t).priority)
          (s.counter (.ready (s.tcb t).priority) + 1)
        hist := .inserted (.ready (s.tcb t).priority) t :: s.hist }
  | insertCall (i : ℕ) (t : Tid) (k : List Frame) (store : Store QRef Tid) (linked : Bool)
      (hgrain : g = .statement) (hstack : s.stack = .insert i t :: k)
      (hslot : s.cap.hasSlot (.ready (s.tcb t).priority) = true)
      (hnew : s.store.newObj s.fresh t = some store)
      (hlinked : store.hasTail (.ready (s.tcb t).priority) = some linked) :
      Trans g s .exec { s with
        store := store, fresh := s.fresh + 1
        stack := [.inserting (if linked then .tailNext else .tail) i t (s.tcb t).priority s.fresh] }
  | inserting (pc pc' : InsertPoint) (i : ℕ) (t : Tid) (p : ℤ) (a : Addr) (k : List Frame)
      (store : Store QRef Tid) (hgrain : g = .statement)
      (hstack : s.stack = .inserting pc i t p a :: k) (h : Inserts s i t p a pc store pc') :
      Trans g s .exec { s with store := store, stack := [.inserting pc' i t p a] }
  | inserted (i : ℕ) (t : Tid) (p : ℤ) (a : Addr) (k : List Frame) (store : Store QRef Tid)
      (hgrain : g = .statement) (hstack : s.stack = .inserting .numObj i t p a :: k)
      (h : s.store.incNumObj (.ready p) = some store) :
      Trans g s .exec { s with
        store := store, stack := [.inserting .count i t p a]
        hist := .inserted (.ready p) t :: s.hist }
  | counted (i : ℕ) (t : Tid) (p : ℤ) (a : Addr) (k : List Frame)
      (hgrain : g = .statement) (hstack : s.stack = .inserting .count i t p a :: k) :
      Trans g s .exec { s with
        stack := [.wake (i + 1) true]
        counter := Function.update s.counter (.ready p) (s.counter (.ready p) + 1) }
  | dispatchNew (y : ℤ) (t : Tid) (k : List Frame) (store : Store QRef Tid)
      (hstack : s.stack = .sched :: k) (hscan : scan s.threadLevelCount 128 = some y)
      (hslot : s.cap.hasSlot (.ready y) = true)
      (hrem : s.store.qRemove (.ready y) = some (some t, store)) (hflag : (s.tcb t).flag = 1) :
      Trans g s .exec { s with
        currentRunningThread := t, blocked := false, stack := [.start], store := store
        threadCount := s.threadCount + 1, userFunction := (s.tcb t).func
        tcb := Function.update s.tcb t { s.tcb t with flag := 0 }
        counter := Function.update s.counter (.ready y) (s.counter (.ready y) - 1)
        hist := .started t :: .removed (.ready y) t :: s.hist }
  | dispatchOld (y : ℤ) (t : Tid) (k k' : List Frame) (store : Store QRef Tid)
      (hstack : s.stack = .sched :: k) (hscan : scan s.threadLevelCount 128 = some y)
      (hslot : s.cap.hasSlot (.ready y) = true)
      (hrem : s.store.qRemove (.ready y) = some (some t, store)) (hflag : (s.tcb t).flag ≠ 1)
      (hcontext : (s.tcb t).context = some k') :
      Trans g s .exec { s with
        currentRunningThread := t, blocked := true, stack := k', store := store
        counter := Function.update s.counter (.ready y) (s.counter (.ready y) - 1)
        hist := .removed (.ready y) t :: s.hist }

theorem tFork_trans {f : ThreadFunc} {v : AnyPtr} {p : ℤ} {k : List Frame}
    (hstack : s.stack = .enter (.tFork f v p) :: k) (h : tFork k s f v p = some s') :
    Trans g s .exec s' := by
  simp only [tFork, Option.bind_eq_bind, Option.bind_eq_some_iff] at h
  obtain ⟨s₁, henq, h⟩ := h
  obtain ⟨hslot, store, hins, rfl⟩ := enqueue_spec henq
  split at h
  · rename_i hprio
    cases h
    exact .fork f v p k _ _ store hstack hslot hins _ rfl (Or.inl ⟨hprio, rfl, rfl⟩)
  · rename_i hprio
    cases h
    exact .fork f v p k _ _ store hstack hslot hins _ rfl (Or.inr ⟨hprio, rfl, rfl⟩)

theorem tJoin_trans {tid : Tid} {k : List Frame} (hstack : s.stack = .enter (.tJoin tid) :: k) :
    Trans g s .exec (tJoin k s tid) := by
  unfold tJoin
  simp only
  split
  · rename_i hexited
    exact .control _ _ _ _ (.joinDone tid k hstack hexited)
  · rename_i hexited
    have h := Trans.join (g := g) tid k _ hstack hexited rfl
    simpa [State.disableTimer, State.setjmp, State.setTcb, State.current] using h

/-- The shared tail of the routines that block the running thread. -/
private theorem suspend_trans {f next : Frame} {k : List Frame} {s₁ : State}
    (hsus : Suspends s q f k next)
    (henq : ((s.disableTimer).setjmp (f :: k)).enqueue q s.currentRunningThread = some s₁) :
    Trans g s .exec (s₁.goto [next]) := by
  obtain ⟨hslot, store, hins, rfl⟩ := enqueue_spec henq
  exact .suspend q f k next store hsus hslot hins

theorem setjmp_priority (k : List Frame) :
    ((s.disableTimer).setjmp k).current.priority = s.current.priority := by
  simp [State.setjmp, State.setTcb, State.current, State.disableTimer]

theorem tYield_trans {k : List Frame} (hstack : s.stack = .enter .tYield :: k)
    (h : tYield k s = some s') : Trans g s .exec s' := by
  simp only [tYield, Option.bind_eq_bind, Option.bind_eq_some_iff, Option.some.injEq,
    setjmp_priority] at h
  obtain ⟨s₁, henq, rfl⟩ := h
  exact suspend_trans (.yield k hstack) henq

theorem timerHandler_trans {k : List Frame} (hstack : s.stack = .handler :: k)
    (h : timerHandler k s = some s') : Trans g s .exec s' := by
  simp only [timerHandler, Option.bind_eq_bind, Option.bind_eq_some_iff, Option.some.injEq,
    setjmp_priority] at h
  obtain ⟨s₁, henq, rfl⟩ := h
  exact suspend_trans (.timer k hstack) henq

theorem tWaitBlock_trans {c : CondId} {k : List Frame} (hstack : s.stack = .waiting c :: k)
    (h : tWaitBlock k s c = some s') : Trans g s .exec s' := by
  simp only [tWaitBlock, Option.bind_eq_bind, Option.bind_eq_some_iff, Option.some.injEq,
    setjmp_priority] at h
  obtain ⟨s₁, henq, rfl⟩ := h
  exact suspend_trans (.wait c k hstack) henq

theorem tSig_trans {c : CondId} {val : AnyPtr} {lock : Option LockId} {k : List Frame}
    (hstack : s.stack = .enter (.tSig c val lock) :: k) (h : tSig k s c lock = some s') :
    Trans g s .exec s' := by
  simp only [tSig, Option.bind_eq_bind, Option.bind_eq_some_iff] at h
  obtain ⟨_, -, _, -, h⟩ := h
  split at h
  · rename_i hscan
    cases h
    exact .control _ _ _ _ (.sigNone c val lock k hstack hscan)
  · rename_i i hscan
    simp only [Option.bind_eq_some_iff] at h
    obtain ⟨empty, hempty, h⟩ := h
    cases empty with
    | true =>
      cases h
      exact .control _ _ _ _ (.sigEmpty c val lock k i hstack hscan hempty)
    | false =>
      simp only [Bool.false_eq_true, if_false, Option.bind_eq_some_iff, Option.some.injEq] at h
      obtain ⟨⟨t, s₁⟩, hdeq, s₂, henq, rfl⟩ := h
      obtain ⟨hslot, store, hrem, rfl⟩ := dequeue_spec hdeq
      obtain ⟨hslot', store', hins, rfl⟩ := enqueue_spec henq
      have h := Trans.sigWake (g := g) c val lock k i t store store' hstack hscan hslot hrem
        (by simpa [State.setTcb, State.disableTimer] using hslot')
        (by simpa [State.setTcb, State.disableTimer] using hins)
      simpa [State.setTcb, State.disableTimer, State.enableTimer, State.goto] using h

theorem semaphoreP_trans {i : SemId} {k : List Frame}
    (hstack : s.stack = .enter (.semaphoreP i) :: k) (h : semaphoreP k s i = some s') :
    Trans g s .exec s' := by
  simp only [semaphoreP, Option.bind_eq_bind, Option.bind_eq_some_iff] at h
  obtain ⟨v, hsem, h⟩ := h
  split at h
  · rename_i hv
    cases h
    exact .semValue _ i k v _ hstack hsem (Or.inl ⟨rfl, hv, rfl⟩)
  · rename_i hv
    simp only [Option.bind_eq_some_iff, Option.some.injEq] at h
    obtain ⟨s₁, henq, rfl⟩ := h
    exact suspend_trans (.pass i v k hstack hsem hv) henq

theorem semaphoreV_trans {i : SemId} {k : List Frame}
    (hstack : s.stack = .enter (.semaphoreV i) :: k) (h : semaphoreV k s i = some s') :
    Trans g s .exec s' := by
  simp only [semaphoreV, Option.bind_eq_bind, Option.bind_eq_some_iff] at h
  obtain ⟨v, hsem, _, -, h⟩ := h
  split at h
  · rename_i hcount
    simp only [Option.bind_eq_some_iff, Option.some.injEq] at h
    obtain ⟨⟨t, s₁⟩, hdeq, s₂, henq, rfl⟩ := h
    obtain ⟨hslot, store, hrem, rfl⟩ := dequeue_spec hdeq
    obtain ⟨hslot', store', hins, rfl⟩ := enqueue_spec henq
    have h := Trans.semWake (g := g) i k v t store store' hstack hsem hcount hslot hrem
      hslot' hins
    simpa [State.disableTimer, State.enableTimer, State.goto, State.current] using h
  · rename_i hcount
    cases h
    exact .semValue _ i k v _ hstack hsem (Or.inr ⟨rfl, hcount, rfl⟩)

theorem semaphoreDestroy_trans {sem : Option SemId} {k : List Frame}
    (hstack : s.stack = .enter (.semaphoreDestroy sem) :: k)
    (h : semaphoreDestroy k s sem = some s') : Trans g s .exec s' := by
  cases sem with
  | none =>
    cases h
    exact .control _ _ _ _ (.nullReturn _ k hstack .destroy)
  | some i =>
    simp only [semaphoreDestroy, Option.bind_eq_bind, Option.bind_eq_some_iff,
      Option.some.injEq] at h
    obtain ⟨v, hsem, rfl⟩ := h
    exact .semFree i k v hstack hsem

theorem lockRelease_trans {l : LockId} {k : List Frame}
    (hstack : s.stack = .enter (.lockRelease l) :: k) (h : lockRelease k s l = some s') :
    Trans g s .exec s' := by
  simp only [lockRelease, Option.bind_eq_bind, Option.bind_eq_some_iff, Option.some.injEq] at h
  obtain ⟨v, hshared, rfl⟩ := h
  exact .unlock l k v hstack hshared

theorem lockAcquire_trans {l : LockId} {k : List Frame} (hstack : s.stack = .spun l :: k)
    (h : lockAcquire k s l = some s') : Trans g s .exec s' := by
  simp only [lockAcquire, Option.bind_eq_bind, Option.bind_eq_some_iff, Option.some.injEq] at h
  obtain ⟨v, hshared, rfl⟩ := h
  exact .lock l k v hstack hshared

theorem spin_trans {l : LockId} {k : List Frame} (hstack : s.stack = .spin l :: k)
    (h : spin k s l = some s') : Trans g s .exec s' := by
  simp only [spin, Option.bind_eq_bind, Option.bind_eq_some_iff] at h
  obtain ⟨v, hshared, h⟩ := h
  split at h
  · rename_i hv
    cases h
    have h := Trans.control (g := g) _ _ _ _ (.spinBusy l k v hstack hshared hv)
    simpa [← hstack] using h
  · rename_i hv
    cases h
    rw [not_not] at hv
    subst v
    exact .control _ _ _ _ (.spinFree l k hstack hshared)

theorem tWait_trans {c : CondId} {lock : Option LockId} {k : List Frame}
    (hstack : s.stack = .enter (.tWait c lock) :: k) : Trans g s .exec (tWait k s c lock) := by
  cases lock with
  | none => exact .control _ _ _ _ (.waitNull c k hstack)
  | some l => exact .control _ _ _ _ (.waitLock c l k hstack)

theorem tWaitResume_trans {k : List Frame} (hstack : s.stack = .waited :: k)
    (h : tWaitResume k s = some s') : Trans g s .exec s' := by
  unfold tWaitResume at h
  split at h
  · rename_i harg
    cases h
    exact .control _ _ _ _ (.waitedNull k hstack harg)
  · rename_i l harg
    cases h
    exact .control _ _ _ _ (.waitedLock l k hstack harg)
  · cases h

theorem lockCreate_trans {mem : Bool} {k : List Frame}
    (hstack : s.stack = .enter (.lockCreate mem) :: k) :
    Trans g s .exec (lockCreate k s mem) := by
  cases mem with
  | true => exact .newLock k hstack
  | false => exact .control _ _ _ _ (.nullReturn _ k hstack .lock)

theorem condCreate_trans {lock : Option LockId} {mem : Bool} {k : List Frame}
    (hstack : s.stack = .enter (.condCreate lock mem) :: k)
    (h : condCreate k s lock mem = some s') : Trans g s .exec s' := by
  cases mem with
  | true =>
    simp only [condCreate, newCond, if_true, Option.bind_eq_bind, Option.bind_eq_some_iff,
      Option.some.injEq] at h
    obtain ⟨s₁, ⟨_, hid, hs₁⟩, rfl⟩ := h
    have h := Trans.newCond (g := g) lock k hstack (of_guard hid)
    simpa only [← hs₁, State.disableTimer, State.enableTimer, State.goto] using h
  | false =>
    cases h
    exact .control _ _ _ _ (.nullReturn _ k hstack (.cond lock))

theorem semaphoreCreate_trans {count : ℤ} {mem : Bool} {k : List Frame}
    (hstack : s.stack = .enter (.semaphoreCreate count mem) :: k) :
    Trans g s .exec (semaphoreCreate k s count mem) := by
  cases mem with
  | true => exact .newSem count k hstack
  | false => exact .control _ _ _ _ (.nullReturn _ k hstack (.sem count))

theorem enter_trans {op : Op} {k : List Frame} (hstack : s.stack = .enter op :: k)
    (h : enter op k s = some s') : Trans g s .exec s' := by
  cases op with
  | tFork f v p => exact tFork_trans hstack h
  | tJoin tid => cases h; exact tJoin_trans hstack
  | tYield => exact tYield_trans hstack h
  | tWait c lock => cases h; exact tWait_trans hstack
  | tSig c val lock => exact tSig_trans hstack h
  | tExit val => cases h; exact .exit val k hstack
  | lockAcquire l => cases h; exact .control _ _ _ _ (.acquire l k hstack)
  | lockRelease l => exact lockRelease_trans hstack h
  | lockCreate mem => cases h; exact lockCreate_trans hstack
  | condCreate lock mem => exact condCreate_trans hstack h
  | semaphoreCreate count mem => cases h; exact semaphoreCreate_trans hstack
  | semaphoreP i => exact semaphoreP_trans hstack h
  | semaphoreV i => exact semaphoreV_trans hstack h
  | semaphoreDestroy sem => exact semaphoreDestroy_trans hstack h

theorem wake_trans {i : ℕ} {waked : Bool} {k : List Frame} (hstack : s.stack = .wake i waked :: k)
    (h : wake s i waked = some s') : Trans g s .exec s' := by
  unfold wake at h
  split at h
  · rename_i hi
    split at h
    · rename_i htarget
      cases h
      exact .control _ _ _ _ (.wakeHit i waked k hstack hi htarget)
    · rename_i htarget
      cases h
      exact .control _ _ _ _ (.wakeSkip i waked k hstack hi (not_not.mp htarget))
  · rename_i hi
    cases waked with
    | true =>
      cases h
      exact .control _ _ _ _ (.wakeEnd i k hstack hi)
    | false =>
      simp only [Bool.false_eq_true, if_false, Option.bind_eq_bind, Option.bind_eq_some_iff,
        Option.some.injEq] at h
      obtain ⟨_, hcap, rfl⟩ := h
      exact .record i k hstack hi (of_guard hcap)

theorem wakeTest_trans {i : ℕ} {waked : Bool} {k : List Frame}
    (hstack : s.stack = .wakeTest i waked :: k) : Trans g s .exec (wakeTest s i waked) := by
  unfold wakeTest
  split
  · rename_i htarget
    exact .control _ _ _ _ (.testHit i waked k hstack htarget)
  · rename_i htarget
    exact .control _ _ _ _ (.testMiss i waked k hstack htarget)

theorem wakeTake_trans {i : ℕ} {k : List Frame} (hstack : s.stack = .wakeTake i :: k)
    (h : wakeTake s i = some s') : Trans g s .exec s' := by
  simp only [wakeTake, Option.bind_eq_bind, Option.bind_eq_some_iff, Option.some.injEq] at h
  obtain ⟨t, hslot, rfl⟩ := h
  exact .control _ _ _ _ (.take i t k hstack hslot)

theorem insertWhole_trans {i : ℕ} {k : List Frame} (hstack : s.stack = .insert i t :: k)
    (h : insertWhole s i t = some s') : Trans .routine s .exec s' := by
  simp only [insertWhole, Option.bind_eq_bind, Option.bind_eq_some_iff, Option.some.injEq] at h
  obtain ⟨s₁, henq, rfl⟩ := h
  obtain ⟨hslot, store, hins, rfl⟩ := enqueue_spec henq
  exact .insertWhole i t k store rfl hstack hslot hins

theorem insertCall_trans {i : ℕ} {k : List Frame} (hstack : s.stack = .insert i t :: k)
    (h : insertCall s i t = some s') : Trans .statement s .exec s' := by
  simp only [insertCall, Option.bind_eq_bind, Option.bind_eq_some_iff, Option.some.injEq] at h
  obtain ⟨_, hslot, store, hnew, linked, hlinked, rfl⟩ := h
  exact .insertCall i t k store linked rfl hstack (of_guard hslot) hnew hlinked

theorem inserting_trans {pc : InsertPoint} {i : ℕ} {p : ℤ} {a : Addr} {k : List Frame}
    (hstack : s.stack = .inserting pc i t p a :: k) (h : inserting s pc i t p a = some s') :
    Trans .statement s .exec s' := by
  cases pc with
  | count =>
    cases h
    exact .counted i t p a k rfl hstack
  | _ =>
    simp only [inserting, Option.bind_eq_bind, Option.bind_eq_some_iff, Option.some.injEq] at h
    obtain ⟨store, hstore, rfl⟩ := h
    first
      | exact .inserted i t p a k store rfl hstack hstore
      | exact .inserting _ _ i t p a k store rfl hstack (.tailNext store hstore)
      | exact .inserting _ _ i t p a k store rfl hstack (.tail store hstore)
      | exact .inserting _ _ i t p a k _ rfl hstack (.noHead store hstore)
      | exact .inserting _ _ i t p a k store rfl hstack (.head store hstore)

theorem scheduler_trans {k : List Frame} (hstack : s.stack = .sched :: k)
    (h : scheduler s = some s') : Trans g s .exec s' := by
  unfold scheduler at h
  simp only at h
  split at h
  · rename_i hscan
    cases h
    exact .control _ _ _ _ (.idle k hstack hscan)
  · rename_i y hscan
    simp only [Option.bind_eq_bind, Option.bind_eq_some_iff] at h
    obtain ⟨⟨t, s₁⟩, hdeq, h⟩ := h
    obtain ⟨hslot, store, hrem, rfl⟩ := dequeue_spec hdeq
    unfold dispatch at h
    simp only at h
    split at h
    · rename_i hflag
      cases h
      have h := Trans.dispatchNew (g := g) y t k store hstack hscan hslot hrem hflag
      simpa [incrementStack, State.setTcb, State.current, State.enableTimer, State.log, State.goto,
        State.disableTimer] using h
    · rename_i hflag
      obtain ⟨k', hcontext, rfl⟩ := Option.map_eq_some_iff.mp h
      exact .dispatchOld y t k k' store hstack hscan hslot hrem hflag hcontext

theorem exec_trans (h : exec g s = some s') : Trans g s .exec s' := by
  unfold exec at h
  split at h
  · cases h
  · rename_i f k hstack
    cases f with
    | user => cases h
    | done => cases h
    | enter op => exact enter_trans hstack h
    | ret v => cases h; exact .control _ _ _ _ (.ret v k hstack)
    | forked tid => cases h; exact .control _ _ _ _ (.forked tid k hstack)
    | yielded => cases h; exact .control _ _ _ _ (.enable _ k hstack (Or.inl rfl))
    | joined tid => cases h; exact .control _ _ _ _ (.joined tid k hstack)
    | waited => exact tWaitResume_trans hstack h
    | passed => cases h; exact .control _ _ _ _ (.enable _ k hstack (Or.inr (Or.inl rfl)))
    | spin l => exact spin_trans hstack h
    | spun l => exact lockAcquire_trans hstack h
    | released => cases h; exact .control _ _ _ _ (.enable _ k hstack (Or.inr (Or.inr rfl)))
    | waiting c => exact tWaitBlock_trans hstack h
    | handler => exact timerHandler_trans hstack h
    | resumed => cases h; exact .control _ _ _ _ (.resumed k hstack)
    | handled => cases h; exact .control _ _ _ _ (.handled k hstack)
    | start => cases h; exact .control _ _ _ _ (.start k hstack)
    | wake i waked => exact wake_trans hstack h
    | wakeTest i waked => cases h; exact wakeTest_trans hstack
    | wakeTake i => exact wakeTake_trans hstack h
    | insert i t =>
      cases g with
      | statement => exact insertCall_trans hstack h
      | routine => exact insertWhole_trans hstack h
    | inserting pc i t p a =>
      cases g with
      | statement => exact inserting_trans hstack h
      | routine => cases h
    | leave => cases h; exact .leave k hstack
    | sitBottom => cases h; exact .control _ _ _ _ (.sitBottom k hstack)
    | sched => exact scheduler_trans hstack h

/-- The case analysis of a move. -/
theorem step_trans (h : step g m s = some s') : Trans g s m s' := by
  cases m with
  | expire =>
    simp only [step] at h
    split at h
    · cases h
    · rename_i hoff
      cases h
      rw [not_or, Bool.not_eq_true] at hoff
      exact .control _ _ _ _ (.expire hoff.1 hoff.2)
  | call op =>
    simp only [step] at h
    split at h
    · rename_i hstack
      cases h
      exact .control _ _ _ _ (.call op hstack)
    · cases h
  | finish =>
    simp only [step] at h
    split at h
    · rename_i hstack
      cases h
      exact .control _ _ _ _ (.finish hstack)
    · cases h
  | exec => exact exec_trans h

end UserThreads.Threads
