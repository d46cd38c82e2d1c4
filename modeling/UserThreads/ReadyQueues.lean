import UserThreads.Epilogue
import UserThreads.MultilevelQueue
import Mathlib.Data.Int.Order.Basic

/-!
The ready queues with their counters are a multilevel queue. With each routine
one step, every move keeps the levels, appends one thread at one of them, or is
a dispatch, which takes the head of the highest level that is not empty;
`Performs` says for each routine which thread it is and which level. The loop of
`incrementStack` appends in its turn every thread of `tcbWaiting` that joins the
one that has ended.
-/
namespace UserThreads.Threads

open LinkedCells Queue Runs MultilevelQueue

/-- Every queue is on the books. -/
def AllQueues : QRef → Prop := fun _ => True

/-- The ready queues as levels. -/
def levels (s : State) : Levels ℤ Tid := fun p => s.contents (.ready p)

/-- The program points from which a thread is made ready or dispatched. -/
def Frame.usesLevels : Frame → Bool
  | .enter (.tFork ..) | .enter .tYield | .handler | .enter (.tSig ..) | .enter (.semaphoreV _)
  | .insert .. | .sched => true
  | _ => false

/-- What each routine does to the levels. -/
inductive Performs (s s' : State) : Move → MultilevelQueue.Op ℤ Tid → Prop
  | tFork (f : ThreadFunc) (v : AnyPtr) (p : ℤ) (k : List Frame)
      (hstack : s.stack = .enter (.tFork f v p) :: k) :
      Performs s s' .exec (.append p (s.gThreadID + 1))
  | tYield (k : List Frame) (hstack : s.stack = .enter .tYield :: k) :
      Performs s s' .exec (.append s.current.priority s.currentRunningThread)
  | timerHandler (k : List Frame) (hstack : s.stack = .handler :: k) :
      Performs s s' .exec (.append s.current.priority s.currentRunningThread)
  | tSig (c : CondId) (val : AnyPtr) (lock : Option LockId) (k : List Frame) (i : ℤ) (t : Tid)
      (rest : List Tid) (hstack : s.stack = .enter (.tSig c val lock) :: k)
      (hhead : s.contents (.cond c i) = t :: rest)
      (hhigh : ∀ p, i < p → p < 128 → s.contents (.cond c p) = []) :
      Performs s s' .exec (.append (s.tcb t).priority t)
  | tSigNone (c : CondId) (val : AnyPtr) (lock : Option LockId) (k : List Frame)
      (hstack : s.stack = .enter (.tSig c val lock) :: k)
      (hnone : ∀ p, 0 ≤ p → p < 128 → s.contents (.cond c p) = []) : Performs s s' .exec .keep
  | semaphoreV (i : SemId) (k : List Frame) (t : Tid) (rest : List Tid)
      (hstack : s.stack = .enter (.semaphoreV i) :: k) (hhead : s.contents (.sem i) = t :: rest) :
      Performs s s' .exec (.append s.current.priority t)
  | semaphoreVNone (i : SemId) (k : List Frame) (hstack : s.stack = .enter (.semaphoreV i) :: k)
      (hnone : s.contents (.sem i) = []) : Performs s s' .exec .keep
  | wakeLoop (i : ℕ) (t : Tid) (k : List Frame) (hstack : s.stack = .insert i t :: k)
      (hslot : s.tcbWaiting i = some t)
      (hjoin : (s.tcb t).waitingForTid = s.currentRunningThread) :
      Performs s s' .exec (.append (s.tcb t).priority t)
  | scheduler (p : ℤ) (k : List Frame) (hstack : s.stack = .sched :: k)
      (hstack' : s'.stack ≠ [.done]) : Performs s s' .exec (.take p s'.currentRunningThread)
  | fallThrough (k : List Frame) (hstack : s.stack = .sched :: k) (hstack' : s'.stack = [.done])
      (hempty : ∀ p, levels s p = []) : Performs s s' .exec .keep
  | other (m : Move) (h : m = .exec → ∀ f k, s.stack = f :: k → f.usesLevels = false) :
      Performs s s' m .keep

/-- The thread in a slot of `tcbWaiting`, if it joins the running thread. -/
def joiner (s : State) (i : ℕ) : Option Tid :=
  if joinTarget s i ≠ 0 ∧ s.currentRunningThread = joinTarget s i then s.tcbWaiting i else none

/-- The threads in the first `n` slots that join the running thread. -/
def joiners (s : State) (n : ℕ) : List Tid := (List.range n).filterMap (joiner s)

variable {good : QRef → Prop} {g : Grain} {s s' : State} {m : Move} {q : QRef} {t : Tid} {p : ℤ}

theorem scan_spec {counter : ℤ → ℤ} {n : ℕ} {y : ℤ} (h : scan counter n = some y) :
    0 ≤ y ∧ y < n ∧ counter y ≠ 0 ∧ ∀ p, y < p → p < n → counter p = 0 := by
  induction n with
  | zero => cases h
  | succ n ih =>
    rw [scan] at h
    split_ifs at h with hn
    · cases h
      exact ⟨by omega, by omega, hn, fun p hp hp' => by omega⟩
    · obtain ⟨h0, hlt, hne, hhigh⟩ := ih h
      refine ⟨h0, by omega, hne, fun p hp hp' => ?_⟩
      by_cases hpn : p = n
      · simpa [hpn] using hn
      · exact hhigh p hp (by omega)

theorem scan_eq_none {counter : ℤ → ℤ} {n : ℕ} :
    scan counter n = none ↔ ∀ p : ℤ, 0 ≤ p → p < n → counter p = 0 := by
  induction n with
  | zero => exact iff_of_true rfl fun p _ _ => by omega
  | succ n ih =>
    rw [scan]
    split_ifs with hn
    · refine iff_of_false (by simp) fun h => hn (h n (by omega) (by omega))
    · rw [ih]
      refine ⟨fun h p h0 hp => ?_, fun h p h0 hp => h p h0 (by omega)⟩
      by_cases hpn : p = n
      · simpa [hpn] using hn
      · exact h p h0 (by omega)

/-- What a good queue held and what came later is what left it and what it holds. -/
theorem QueuesOk.fifo {es : List Event} (h : QueuesOk good s) (h' : QueuesOk good s') (hq : good q)
    (hes : s'.hist = es ++ s.hist) :
    s.contents q ++ insertedAt q es = removedAt q es ++ s'.contents q := by
  have hbefore := (h.contents hq).2
  have hafter := (h'.contents hq).2
  rw [hes, insertedAt_append, removedAt_append, hbefore, List.append_assoc,
    List.append_assoc] at hafter
  exact List.append_cancel_left hafter

/-- A thread stays in a good queue until it is removed. -/
theorem QueuesOk.stays {es : List Event} (h : QueuesOk good s) (h' : QueuesOk good s') (hq : good q)
    (hes : s'.hist = es ++ s.hist) (ht : t ∈ s.contents q) (hnot : t ∉ removedAt q es) :
    t ∈ s'.contents q := by
  have hmem : t ∈ removedAt q es ++ s'.contents q :=
    h.fifo h' hq hes ▸ List.mem_append_left _ ht
  exact (List.mem_append.mp hmem).resolve_left hnot

/-- What a good queue holds after some insertions. -/
theorem QueuesOk.contents_inserted (h : QueuesOk good s) (h' : QueuesOk good s') (hq : good q)
    (xs : List Tid) (hins : insertedAt q s'.hist = insertedAt q s.hist ++ xs)
    (hrem : removedAt q s'.hist = removedAt q s.hist) :
    s'.contents q = s.contents q ++ xs := by
  have hbefore := (h.contents hq).2
  have hafter := (h'.contents hq).2
  rw [hins, hrem, hbefore, List.append_assoc] at hafter
  exact (List.append_cancel_left hafter).symm

theorem QueuesOk.contents_same (h : QueuesOk good s) (h' : QueuesOk good s') (hq : good q)
    (hins : insertedAt q s'.hist = insertedAt q s.hist)
    (hrem : removedAt q s'.hist = removedAt q s.hist) : s'.contents q = s.contents q := by
  simpa using h.contents_inserted h' hq [] (by simpa using hins) hrem

theorem QueuesOk.contents_removed (h : QueuesOk good s) (h' : QueuesOk good s') (hq : good q)
    (hins : insertedAt q s'.hist = insertedAt q s.hist)
    (hrem : removedAt q s'.hist = removedAt q s.hist ++ [t]) :
    s.contents q = t :: s'.contents q := by
  have hbefore := (h.contents hq).2
  have hafter := (h'.contents hq).2
  rw [hins, hrem, hbefore, List.append_assoc] at hafter
  exact List.append_cancel_left hafter

section Levels

/-! The queues at the places `f i` as levels. -/

variable {ι : Type} {f : ι → QRef} {i : ι}

theorem contents_same (h : QueuesOk AllQueues s) (h' : QueuesOk AllQueues s')
    (hsame : ∀ j, insertedAt (f j) s'.hist = insertedAt (f j) s.hist ∧
      removedAt (f j) s'.hist = removedAt (f j) s.hist) :
    (fun j => s'.contents (f j)) = fun j => s.contents (f j) :=
  funext fun j => h.contents_same h' trivial (hsame j).1 (hsame j).2

variable [DecidableEq ι]

theorem contents_append (h : QueuesOk AllQueues s) (h' : QueuesOk AllQueues s')
    (hrem : ∀ j, removedAt (f j) s'.hist = removedAt (f j) s.hist)
    (hins : ∀ j, insertedAt (f j) s'.hist =
      if i = j then insertedAt (f j) s.hist ++ [t] else insertedAt (f j) s.hist) :
    (fun j => s'.contents (f j)) = Levels.append (fun j => s.contents (f j)) i t := by
  funext j
  by_cases hj : j = i
  · subst hj
    rw [Levels.append, Levels.set_self]
    exact h.contents_inserted h' trivial _ (by simp [hins]) (hrem j)
  · rw [Levels.append, Levels.set_of_ne hj]
    exact h.contents_same h' trivial (by rw [hins, if_neg (Ne.symm hj)]) (hrem j)

theorem contents_take (h : QueuesOk AllQueues s) (h' : QueuesOk AllQueues s')
    (hins : ∀ j, insertedAt (f j) s'.hist = insertedAt (f j) s.hist)
    (hrem : ∀ j, removedAt (f j) s'.hist =
      if i = j then removedAt (f j) s.hist ++ [t] else removedAt (f j) s.hist) :
    ∃ rest, s.contents (f i) = t :: rest ∧
      (fun j => s'.contents (f j)) = Levels.set (fun j => s.contents (f j)) i rest := by
  refine ⟨_, h.contents_removed h' trivial (hins i) (by simp [hrem]), ?_⟩
  funext j
  by_cases hj : j = i
  · rw [hj, Levels.set_self]
  · rw [Levels.set_of_ne hj]
    exact h.contents_same h' trivial (hins j) (by rw [hrem, if_neg (Ne.symm hj)])

end Levels

theorem hasSlot_ready {cap : Capacity} (h : cap.hasSlot (.ready p) = true) : 0 ≤ p ∧ p < 128 := by
  simpa [Capacity.hasSlot] using h

/-- A counter that is 0 stands beside an empty level, and levels outside the
table hold nothing. -/
theorem QueuesOk.levels_empty (h : QueuesOk AllQueues s) (hzero : 0 ≤ p → p < 128 →
    s.threadLevelCount p = 0) : levels s p = [] := by
  by_cases hp : 0 ≤ p ∧ p < 128
  · exact h.empty_of_count trivial (hzero hp.1 hp.2)
  · simp [levels, State.contents, Store.contents, (h.ready p).mpr hp]

theorem QueuesOk.dispatch {y : ℤ} {k : List Frame} (h : QueuesOk AllQueues s)
    (h' : QueuesOk AllQueues s') (hstack : s.stack = .sched :: k)
    (hscan : scan s.threadLevelCount 128 = some y) (hcur : s'.currentRunningThread = t)
    (hstack' : s'.stack ≠ [.done])
    (hins : ∀ p, insertedAt (.ready p) s'.hist = insertedAt (.ready p) s.hist)
    (hrem : ∀ r, removedAt (.ready r) s'.hist =
      if y = r then removedAt (.ready r) s.hist ++ [t] else removedAt (.ready r) s.hist) :
    ∃ op, Performs s s' .exec op ∧ Step op (levels s) (levels s') := by
  obtain ⟨rest, hhead, hset⟩ := contents_take h h' hins hrem
  obtain ⟨-, -, -, hhigh⟩ := scan_spec hscan
  refine ⟨_, .scheduler y k hstack hstack', ?_⟩
  rw [show levels s' = (levels s).set y rest from hset, hcur]
  exact .take _ _ _ _ hhead fun p hp => h.levels_empty fun _ hp' => hhigh p hp hp'

/-- Each move is an operation on the levels. -/
theorem Trans.levels (h : Trans .routine s m s') (hr : Regular s) (hq : QueuesOk AllQueues s)
    (hl : LoopFrames s) : ∃ op, Performs s s' m op ∧ Step op (levels s) (levels s') := by
  have hq' : QueuesOk AllQueues s' := h.queuesOk hq steady_of_routine
  have hkeep : Performs s s' m .keep →
      (∀ p, insertedAt (.ready p) s'.hist = insertedAt (.ready p) s.hist ∧
        removedAt (.ready p) s'.hist = removedAt (.ready p) s.hist) →
      ∃ op, Performs s s' m op ∧ Step op (Threads.levels s) (Threads.levels s') := by
    intro hperf hsame
    refine ⟨.keep, hperf, ?_⟩
    rw [show Threads.levels s' = Threads.levels s from contents_same hq hq' hsame]
    exact .keep _
  have hother : ∀ {f : Frame} {k : List Frame}, s.stack = f :: k → f.usesLevels = false →
      Performs s s' m .keep := by
    intro f k hstack hf
    refine .other _ fun _ f' k' hk' => ?_
    rw [hstack] at hk'
    cases hk'
    exact hf
  have happend : ∀ {p : ℤ} {t : Tid} {es : List Event}, Performs s s' m (.append p t) →
      s'.hist = .inserted (.ready p) t :: es →
      (∀ r, insertedAt (.ready r) es = insertedAt (.ready r) s.hist ∧
        removedAt (.ready r) es = removedAt (.ready r) s.hist) →
      ∃ op, Performs s s' m op ∧ Step op (Threads.levels s) (Threads.levels s') := by
    intro p t es hperf hhist hes
    refine ⟨_, hperf, ?_⟩
    rw [show Threads.levels s' = (Threads.levels s).append p t from
      contents_append hq hq' (fun r => by simp [hhist, removedAt, hes])
        fun r => by simp [hhist, insertedAt, hes]]
    exact .append _ _ _
  cases h with
  | control m k b es h' =>
    cases h' with
    | idle k hstack hscan =>
      refine hkeep (.fallThrough k hstack rfl fun p => ?_) fun _ => ⟨rfl, rfl⟩
      exact hq.levels_empty (scan_eq_none.mp hscan p)
    | sigNone c val lock k hstack hscan =>
      refine hkeep (.tSigNone c val lock k hstack fun p h0 hp => ?_) fun _ => ⟨rfl, rfl⟩
      exact hq.empty_of_count trivial (scan_eq_none.mp hscan p h0 hp)
    | sigEmpty c val lock k i hstack hscan hempty =>
      obtain ⟨-, -, hcount, -⟩ := scan_spec hscan
      cases hq.not_empty (q := .cond c i) trivial hcount hempty
    | expire | call | finish => exact hkeep (.other _ (by simp)) fun _ => ⟨rfl, rfl⟩
    | nullReturn op k hstack hop =>
      exact hkeep (hother hstack (by cases hop <;> rfl)) fun _ => ⟨rfl, rfl⟩
    | enable f k hstack hf =>
      exact hkeep (hother hstack (by rcases hf with rfl | rfl | rfl <;> rfl)) fun _ => ⟨rfl, rfl⟩
    | joinDone _ _ hstack | waitLock _ _ _ hstack | waitNull _ _ hstack | acquire _ _ hstack
    | ret _ _ hstack | forked _ _ hstack | joined _ _ hstack | waitedNull _ hstack
    | waitedLock _ _ hstack | spinBusy _ _ _ hstack | spinFree _ _ hstack | resumed _ hstack
    | handled _ hstack | start _ hstack | wakeSkip _ _ _ hstack | wakeHit _ _ _ hstack
    | wakeEnd _ _ hstack | testHit _ _ _ hstack | testMiss _ _ _ hstack | take _ _ _ hstack
    | sitBottom _ hstack =>
      exact hkeep (hother hstack rfl) fun _ => ⟨rfl, rfl⟩
  | suspend q f k next store h' hslot =>
    cases h' with
    | yield _ hstack => exact happend (.tYield k hstack) rfl fun _ => ⟨rfl, rfl⟩
    | timer _ hstack => exact happend (.timerHandler k hstack) rfl fun _ => ⟨rfl, rfl⟩
    | wait _ _ hstack | pass _ _ _ hstack =>
      exact hkeep (hother hstack rfl) fun _ => ⟨by simp [insertedAt], rfl⟩
  | fork f v p k _ _ _ hstack =>
    exact happend (.tFork f v p k hstack) rfl fun _ => ⟨rfl, rfl⟩
  | sigWake c val lock k i t _ _ hstack hscan _ hrem =>
    obtain ⟨-, -, -, hhigh⟩ := scan_spec hscan
    obtain ⟨rest, hhead⟩ := hq.head (q := .cond c i) trivial hrem
    refine happend (.tSig c val lock k i t rest hstack hhead fun p hp hp' => ?_) rfl
      fun _ => ⟨rfl, by simp [removedAt]⟩
    exact hq.empty_of_count trivial (hhigh p hp hp')
  | semWake i k _ t _ _ hstack _ _ _ hrem =>
    obtain ⟨rest, hhead⟩ := hq.head (q := .sem i) trivial hrem
    exact happend (.semaphoreV i k t rest hstack hhead) rfl fun _ => ⟨rfl, by simp [removedAt]⟩
  | semValue op i k _ _ hstack _ hop =>
    rcases hop with ⟨rfl, -, -⟩ | ⟨rfl, hcount, -⟩
    · exact hkeep (hother hstack rfl) fun _ => ⟨rfl, rfl⟩
    · refine hkeep (.semaphoreVNone i k hstack ?_) fun _ => ⟨rfl, rfl⟩
      have hlength := (hq.contents (q := .sem i) trivial).1
      refine hq.empty_of_count trivial (le_antisymm (not_lt.mp hcount) ?_)
      rw [hlength]
      exact Int.natCast_nonneg _
  | insertWhole i t k _ _ hstack =>
    obtain ⟨hslot, hjoin⟩ := hl.insert i t k hstack
    exact happend (.wakeLoop i t k hstack hslot hjoin) rfl fun _ => ⟨rfl, rfl⟩
  | insertCall _ _ _ _ _ hgrain | inserting _ _ _ _ _ _ _ _ hgrain | inserted _ _ _ _ _ _ hgrain
  | counted _ _ _ _ _ hgrain =>
    cases hgrain
  | dispatchNew y t k store hstack hscan =>
    exact hq.dispatch hq' hstack hscan rfl (by simp) (fun _ => rfl) fun _ => by simp [removedAt]
  | dispatchOld y t k k' store hstack hscan _ _ _ hcontext =>
    refine hq.dispatch hq' hstack hscan rfl ?_ (fun _ => rfl) fun _ => by simp [removedAt]
    intro heq
    subst heq
    cases hr.shaped.context t _ hcontext with
    | intro hf _ => cases hf
  | semFree _ _ _ hstack | newLock _ hstack | newCond _ _ hstack | newSem _ _ hstack
  | join _ _ _ hstack | record _ _ hstack | unlock _ _ _ hstack | lock _ _ _ hstack
  | exit _ _ hstack | leave _ hstack =>
    exact hkeep (hother hstack rfl) fun _ => ⟨rfl, rfl⟩

section WakeLoop

variable {a b : State} {i n : ℕ}

theorem joiners_succ : joiners s (n + 1) = joiners s n ++ (joiner s n).toList := by
  rw [joiners, List.range_succ, List.filterMap_append, joiners]
  cases hjoiner : joiner s n <;> simp [hjoiner]

/-- Since `s` the first `n` slots have been dealt with. -/
structure Swept (s a : State) (n : ℕ) : Prop where
  tcb : a.tcb = s.tcb
  table : a.tcbWaiting = s.tcbWaiting
  current : a.currentRunningThread = s.currentRunningThread
  levels : levels a = (levels s).appendAll (fun t => (s.tcb t).priority) (joiners s n)

theorem Swept.joinTarget (h : Swept s a n) : joinTarget a i = Threads.joinTarget s i := by
  simp [Threads.joinTarget, h.table, h.tcb]

theorem Swept.skip (h : Swept s a n) (hnone : joiner s n = none) : Swept s a (n + 1) :=
  ⟨h.tcb, h.table, h.current, by rw [h.levels, joiners_succ, hnone, Option.toList_none,
    List.append_nil]⟩

theorem Swept.goto {k : List Frame} (h : Swept s a n) : Swept s (a.goto k) n :=
  ⟨h.tcb, h.table, h.current, h.levels⟩

/-- Where the wake loop is that began in the state `s`. -/
inductive Sweeping (s a : State) : Prop
  | wake (i : ℕ) (waked : Bool) (hstack : a.stack = [.wake i waked]) (hi : i ≤ 50)
      (h : Swept s a i)
  | wakeTest (i : ℕ) (waked : Bool) (hstack : a.stack = [.wakeTest i waked]) (hi : i < 50)
      (htarget : joinTarget s i ≠ 0) (h : Swept s a i)
  | wakeTake (i : ℕ) (hstack : a.stack = [.wakeTake i]) (hi : i < 50)
      (htarget : joinTarget s i ≠ 0) (hcur : s.currentRunningThread = joinTarget s i)
      (h : Swept s a i)
  | insert (i : ℕ) (t : Tid) (hstack : a.stack = [.insert i t]) (hi : i < 50)
      (hjoiner : joiner s i = some t) (h : Swept s a i)
  | leave (hstack : a.stack = [.leave]) (h : Swept s a 50)
  | left (hphase : phase a.stack ≠ .epilogue)

/-- The thread that the loop has found goes to the end of its level. -/
theorem Swept.insert (h : Swept s a i) (hstack : a.stack = [.insert i t])
    (hjoiner : joiner s i = some t) (hq : QueuesOk AllQueues a)
    (hinsert : insertWhole a i t = some b) :
    b.stack = [.wake (i + 1) true] ∧ Swept s b (i + 1) := by
  have htrans := insertWhole_trans hstack hinsert
  have hq' : QueuesOk AllQueues b := htrans.queuesOk hq steady_of_routine
  simp only [insertWhole, Option.bind_eq_bind, Option.bind_eq_some_iff, Option.some.injEq]
    at hinsert
  obtain ⟨a₁, henq, rfl⟩ := hinsert
  obtain ⟨-, store, -, rfl⟩ := enqueue_spec henq
  have hlevels := contents_append (f := .ready) (i := (a.tcb t).priority) (t := t) hq hq'
    (fun r => by simp [State.goto, removedAt]) fun r => by simp [State.goto, insertedAt]
  refine ⟨rfl, h.tcb, h.table, h.current, ?_⟩
  rw [joiners_succ, hjoiner, Option.toList_some, Levels.appendAll_snoc, ← h.levels, ← h.tcb]
  exact hlevels

theorem Sweeping.exec (h : Sweeping s a) (hq : QueuesOk AllQueues a)
    (hphase : phase a.stack = .epilogue) (hexec : exec .routine a = some b) :
    Sweeping s b := by
  unfold Threads.exec at hexec
  cases h with
  | wake i waked hstack hi h =>
    simp only [hstack, Threads.wake, h.joinTarget] at hexec
    split_ifs at hexec with hlt htarget hwaked
    · cases hexec
      exact .wakeTest i waked rfl hlt htarget h.goto
    · cases hexec
      have hskip := h.skip (by simp [joiner, not_not.mp htarget])
      exact .wake (i + 1) waked rfl hlt hskip.goto
    · cases hexec
      obtain rfl : i = 50 := by omega
      exact .leave rfl h.goto
    · simp only [Option.bind_eq_bind, Option.bind_eq_some_iff, Option.some.injEq] at hexec
      obtain ⟨_, -, rfl⟩ := hexec
      obtain rfl : i = 50 := by omega
      exact .leave rfl ⟨h.tcb, h.table, h.current, h.levels⟩
  | wakeTest i waked hstack hi htarget h =>
    simp only [hstack, Threads.wakeTest, h.joinTarget, h.current, Option.some.injEq] at hexec
    split_ifs at hexec with hcur
    · cases hexec
      exact .wakeTake i rfl hi htarget hcur h.goto
    · cases hexec
      have hskip := h.skip (by simp [joiner, hcur])
      exact .wake (i + 1) waked rfl hi hskip.goto
  | wakeTake i hstack hi htarget hcur h =>
    simp only [hstack, Threads.wakeTake, h.table, Option.bind_eq_bind, Option.bind_eq_some_iff,
      Option.some.injEq] at hexec
    obtain ⟨t, hslot, rfl⟩ := hexec
    have hjoiner : joiner s i = some t := by rw [joiner, if_pos ⟨htarget, hcur⟩, hslot]
    exact .insert i t rfl hi hjoiner h.goto
  | insert i t hstack hi hjoiner h =>
    simp only [hstack] at hexec
    obtain ⟨hstack', h'⟩ := h.insert hstack hjoiner hq hexec
    exact .wake (i + 1) true hstack' hi h'
  | leave hstack h =>
    simp only [hstack, Option.some.injEq] at hexec
    cases hexec
    exact .left (by simp [State.goto, phase, Frame.phase])
  | left hnot => exact absurd hphase hnot

/-- The wake loop, executed from its beginning to the final `longjmp`, makes ready every thread
that joins the running one, in the order of the slots and each at its own level. -/
theorem wakeLoop_levels (hq : QueuesOk AllQueues s) (hstack : s.stack = [.wake 0 false])
    (hrun : Run (step .routine) InEpilogue s a) (hleave : a.stack = [.leave]) :
    levels a = (levels s).appendAll (fun t => (s.tcb t).priority) (joiners s 50) := by
  have hstart : Swept s s 0 := ⟨rfl, rfl, rfl, rfl⟩
  have hall := hrun.invariant (I := fun a => QueuesOk AllQueues a ∧ Sweeping s a)
    ⟨hq, .wake 0 false hstack (Nat.zero_le _) hstart⟩ fun m a b hI hok hstep => by
      obtain ⟨rfl, hphase⟩ := hok
      exact ⟨(step_trans hstep).queuesOk hI.1 steady_of_routine, hI.2.exec hI.1 hphase hstep⟩
  cases hall.2 with
  | leave _ h => exact h.levels
  | left hnot => exact absurd (by rw [hleave]; rfl) hnot
  | wake _ _ hstack' | wakeTest _ _ hstack' | wakeTake _ hstack' | insert _ _ hstack' =>
    rw [hleave] at hstack'
    cases hstack'

end WakeLoop

section Refinement

variable {ok : Move → State → Prop} {s₀ : State}

theorem regular_of_run (h₀ : Initial s₀) (hrun : Run (step g) ok s₀ s) : Regular s :=
  hrun.invariant h₀.regular fun _ _ _ hr _ hstep => (step_trans hstep).regular hr

theorem queuesOk_of_run (h₀ : Initial s₀) (hsteady : ∀ s : State, s.Steady g good)
    (hrun : Run (step g) ok s₀ s) : QueuesOk good s :=
  hrun.invariant h₀.queuesOk fun _ a _ hq _ hstep => (step_trans hstep).queuesOk hq (hsteady a)

/-- What holds throughout a run in which the timer leaves the epilogue whole. -/
structure Whole (s : State) : Prop where
  regular : Regular s
  queues : QueuesOk AllQueues s
  alone : EpilogueAlone s
  loop : LoopFrames s

theorem Trans.whole (h : Trans .routine s m s') (hwhole : EpilogueWhole m s) (hw : Whole s) :
    Whole s' where
  regular := h.regular hw.regular
  queues := h.queuesOk hw.queues steady_of_routine
  alone := h.epilogueAlone hwhole hw.regular.shaped hw.alone
  loop := h.loopFrames hw.alone hw.loop

theorem Initial.whole (h : Initial s) : Whole s :=
  ⟨h.regular, h.queuesOk, h.standsAlone (by simp [Frame.phase]), h.loopFrames⟩

/-- With each routine one step, the epilogue of `incrementStack` included, the ready queues
refine a multilevel queue. The counters are right in every state. Every move is the operation of
the multilevel queue that its routine performs, and the wake loop makes ready every thread that
joins. `Scheduler` falls through exactly when all levels are empty; otherwise the queue it
removes from is not. -/
theorem ready_queues_refine (h₀ : Initial s₀) (hrun : Run (step .routine) EpilogueWhole s₀ s) :
    (∀ p, 0 ≤ p → p < 128 → ∃ xs, Holds s.store (.ready p) xs ∧
      levels s p = xs.map Prod.snd ∧ s.threadLevelCount p = xs.length) ∧
    (∀ m s', step .routine m s = some s' →
      ∃ op, Performs s s' m op ∧ Step op (levels s) (levels s')) ∧
    (∀ s', s.stack = [.wake 0 false] → Run (step .routine) InEpilogue s s' →
      s'.stack = [.leave] →
      levels s' = (levels s).appendAll (fun t => (s.tcb t).priority) (joiners s 50)) ∧
    (∀ k s', s.stack = .sched :: k → step .routine .exec s = some s' →
      (s'.stack = [.done] ↔ ∀ p, 0 ≤ p → p < 128 → levels s p = [])) ∧
    (∀ k y, s.stack = .sched :: k → scan s.threadLevelCount 128 = some y → levels s y ≠ []) := by
  obtain ⟨hr, hq, -, hl⟩ : Whole s := hrun.invariant h₀.whole
    fun m a b hw hwhole hstep => (step_trans hstep).whole hwhole hw
  have hcount : ∀ p, s.threadLevelCount p = (levels s p).length := fun p =>
    (hq.contents (q := .ready p) trivial).1
  refine ⟨?_, fun m s' hstep => (step_trans hstep).levels hr hq hl,
    fun s' hstack hepilogue => wakeLoop_levels hq hstack hepilogue, ?_, ?_⟩
  · intro p h0 hp
    obtain ⟨xs, hholds, hxs⟩ := hq.holds (q := .ready p) trivial
      fun hnone => (hq.ready p).mp hnone ⟨h0, hp⟩
    refine ⟨xs, hholds, hxs.symm, ?_⟩
    rw [hcount, levels, ← hxs, List.length_map]
  · intro k s' hstack hstep
    obtain ⟨op, hperf, hop⟩ := (step_trans hstep).levels hr hq hl
    cases hperf with
    | scheduler p k' _ hdone =>
      refine iff_of_false hdone fun hempty => ?_
      refine hop.take_ne_nil (hq.levels_empty fun h0 hp => ?_)
      rw [hcount, hempty p h0 hp]
      rfl
    | fallThrough k' _ hdone hempty => exact iff_of_true hdone fun p _ _ => hempty p
    | other _ hnot => cases hnot rfl _ _ hstack
    | tFork _ _ _ _ hstack' | tYield _ hstack' | timerHandler _ hstack'
    | tSig _ _ _ _ _ _ _ hstack' | tSigNone _ _ _ _ hstack' | semaphoreV _ _ _ _ hstack'
    | semaphoreVNone _ _ hstack' | wakeLoop _ _ _ hstack' =>
      rw [hstack] at hstack'
      cases hstack'
  · intro k y _ hscan hnil
    obtain ⟨-, -, hne, -⟩ := scan_spec hscan
    apply hne
    rw [hcount, hnil]
    rfl

/-- Thread 1 joins thread 2, which then ends: the epilogue puts thread 1 at its level. -/
theorem ready_queues_refine_joined :
    ∃ s₀ s s', Initial s₀ ∧ Run (step .routine) EpilogueWhole s₀ s ∧ joiners s 50 = [1] ∧
      Run (step .routine) InEpilogue s s' ∧ s'.stack = [.leave] ∧
      levels s' = (levels s).appendAll (fun t => (s.tcb t).priority) [1] := by
  obtain ⟨s₀, s, h₀, hrun, hgood⟩ := exists_run .routine EpilogueWhole [] 127
    [.exec, .exec, .call (.tFork 0 .null 126), .exec, .exec, .call (.tJoin 2), .exec, .exec, .exec,
     .finish] (fun s => (s.stack = [.wake 0 false] ∧ joiners s 50 = [1]) ∧
      (play (step .routine) InEpilogue (List.replicate 54 .exec) s).any
        fun s' => s'.stack = [.leave]) (by decide +kernel)
  obtain ⟨⟨hstack, hjoiners⟩, hplay⟩ := of_decide_eq_true hgood
  obtain ⟨s', hs', hleave⟩ := (Option.any_eq_true ..).mp hplay
  obtain ⟨l, hpath, hl⟩ := path_of_play hs'
  have hleave' := of_decide_eq_true hleave
  refine ⟨s₀, s, s', h₀, hrun, hjoiners, hpath.run hl, hleave', ?_⟩
  rw [(ready_queues_refine h₀ hrun).2.2.1 s' hstack (hpath.run hl) hleave', hjoiners]

end Refinement

end UserThreads.Threads
