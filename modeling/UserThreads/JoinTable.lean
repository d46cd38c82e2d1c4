import UserThreads.Joining

/-!
The join table. `t_join` registers its caller in the slots of `tcbWaiting` in
turn and begins again at slot 0 after slot 49, whoever stands there. A thread
blocked on one that has not ended keeps an entry as long as no registration
takes the last slot it stands in.
-/
namespace UserThreads.Threads

open LinkedCells Queue Runs

namespace State

/-- The thread has suspended itself in `t_join(tid)` and has not been resumed. -/
def BlocksOn (s : State) (t tid : Tid) : Prop :=
  s.Joins t tid ∧ (t = s.currentRunningThread → body s.stack = [])

/-- The slot that `t_join` takes next. -/
def nextSlot (s : State) : ℕ := if s.waitingIndex < 50 then s.waitingIndex else 0

def isBlocked (s : State) (t : Tid) : Bool :=
  match (s.tcb t).context with
  | some (.joined _ :: _) => t ≠ s.currentRunningThread || body s.stack = []
  | _ => false

/-- The threads blocked in `t_join`. -/
def blockedThreads (s : State) : List Tid :=
  ((List.range' 1 s.gThreadID.toNat).map Int.ofNat).filter s.isBlocked

end State

/-- The wake loop of a thread that has not ended will find everyone blocked on it. -/
def Registered (s : State) : Prop :=
  ∀ t tid, s.BlocksOn t tid → ¬ s.Ended tid →
    ∃ j < 50, s.tcbWaiting j = some t ∧ (s.tcb t).waitingForTid = tid

/-- A registration leaves every other thread that is blocked on one that has not
ended a slot. -/
def SparesJoiners (m : Move) (s : State) : Prop :=
  m = .exec → ∀ tid k, s.stack = .enter (.tJoin tid) :: k → tid ∉ s.exitedThreadIDs →
    ∀ t u, t ≠ s.currentRunningThread → s.BlocksOn t u → ¬ s.Ended u →
      ∃ j < 50, j ≠ s.nextSlot ∧ s.tcbWaiting j = some t

variable {g : Grain} {s s' : State} {m : Move} {t tid : Tid} {k : List Frame}

/-- What a move does to the join table and to those who block. -/
inductive JoinMove (m : Move) (s s' : State) : Prop
  | keep (hnot : m = .exec → ∀ tid k, s.stack = .enter (.tJoin tid) :: k →
        tid ∈ s.exitedThreadIDs)
      (htable : s'.tcbWaiting = s.tcbWaiting)
      (hblocks : ∀ t tid, s'.BlocksOn t tid →
        s.BlocksOn t tid ∧ (s'.tcb t).waitingForTid = (s.tcb t).waitingForTid) : JoinMove m s s'
  | join (tid : Tid) (k : List Frame) (hm : m = .exec)
      (hstack : s.stack = .enter (.tJoin tid) :: k) (hexited : tid ∉ s.exitedThreadIDs)
      (htable : s'.tcbWaiting =
        Function.update s.tcbWaiting s.nextSlot (some s.currentRunningThread))
      (hself : ∀ u, s'.BlocksOn s.currentRunningThread u → u = tid)
      (hcaller : (s'.tcb s.currentRunningThread).waitingForTid = tid)
      (hblocks : ∀ t u, t ≠ s.currentRunningThread → (s'.BlocksOn t u ↔ s.BlocksOn t u) ∧
        (s'.tcb t).waitingForTid = (s.tcb t).waitingForTid)
      (hended : ∀ u, s'.Ended u ↔ s.Ended u) : JoinMove m s s'

theorem Control.not_registers {b : Bool} {es : List Event} (h : Control s m k b es)
    (hm : m = .exec) (k' : List Frame) (hstack : s.stack = .enter (.tJoin tid) :: k') :
    tid ∈ s.exitedThreadIDs := by
  subst hm
  cases h with
  | joinDone _ _ hk hexited =>
    rw [hstack] at hk
    cases hk
    exact hexited
  | nullReturn _ _ hk hop =>
    rw [hstack] at hk
    cases hk
    cases hop
  | enable _ _ hk hf =>
    rw [hstack] at hk
    cases hk
    rcases hf with hf | hf | hf <;> cases hf
  | waitLock _ _ _ hk | waitNull _ _ hk | sigNone _ _ _ _ hk | sigEmpty _ _ _ _ _ hk
  | acquire _ _ hk | ret _ _ hk | forked _ _ hk | joined _ _ hk | waitedNull _ hk
  | waitedLock _ _ hk | spinBusy _ _ _ hk | spinFree _ _ hk | resumed _ hk | handled _ hk
  | start _ hk | wakeSkip _ _ _ hk | wakeHit _ _ _ hk | wakeEnd _ _ hk | testHit _ _ _ hk
  | testMiss _ _ _ hk | take _ _ _ hk | sitBottom _ hk | idle _ hk =>
    rw [hstack] at hk
    cases hk

/-- When the running thread saves another context, or none, it is not blocked in
`t_join` and the others are as before. -/
theorem blocksOn_of_update {c : Tcb}
    (htcb : s'.tcb = Function.update s.tcb s.currentRunningThread c)
    (hc : ∀ tid k, c.context ≠ some (.joined tid :: k)) (hb : s'.BlocksOn t tid) :
    s.BlocksOn t tid ∧ (s'.tcb t).waitingForTid = (s.tcb t).waitingForTid := by
  by_cases ht : t = s.currentRunningThread
  · obtain ⟨k, hk⟩ := hb.1
    rw [htcb, ht, Function.update_self] at hk
    exact absurd hk (hc tid k)
  · have hsame : s'.tcb t = s.tcb t := by rw [htcb, Function.update_of_ne ht]
    refine ⟨⟨?_, fun heq => absurd heq ht⟩, by rw [hsame]⟩
    simpa [State.Joins, hsame] using hb.1

theorem not_registers {f : Frame} (hstack : s.stack = f :: k) (hf : ∀ tid, f ≠ .enter (.tJoin tid))
    (_ : m = .exec) (tid : Tid) (k' : List Frame) (hk' : s.stack = .enter (.tJoin tid) :: k') :
    tid ∈ s.exitedThreadIDs := by
  rw [hstack] at hk'
  cases hk'
  exact absurd rfl (hf tid)

/-- The running thread goes on, and tcbs and table are as before. -/
theorem JoinMove.goes_on {f : Frame} (hstack : s.stack = f :: k)
    (hf : ∀ tid, f ≠ .enter (.tJoin tid)) (htcb : s'.tcb = s.tcb)
    (htable : s'.tcbWaiting = s.tcbWaiting)
    (hcur : s'.currentRunningThread = s.currentRunningThread) (hbody : body s'.stack ≠ []) :
    JoinMove m s s' := by
  refine .keep (not_registers hstack hf) htable fun t tid hb => ⟨⟨?_, fun heq => ?_⟩, by rw [htcb]⟩
  · simpa [State.Joins, htcb] using hb.1
  · exact absurd (hb.2 (heq.trans hcur.symm)) hbody

theorem Trans.joinMove (h : Trans g s m s') (hr : Regular s) : JoinMove m s s' := by
  cases h with
  | control m k b es h =>
    refine .keep (fun hm tid k' => h.not_registers hm k') rfl fun t tid hb => ?_
    exact ⟨⟨hb.1, fun heq => (h.body_nil hr.shaped.stack (hb.2 heq)).1⟩, rfl⟩
  | suspend q f k next store h =>
    cases h with
    | yield _ hstack | timer _ hstack | wait _ _ hstack | pass _ _ _ hstack =>
      exact .keep (not_registers hstack (by simp)) rfl fun _ _ => blocksOn_of_update rfl (by simp)
  | fork f v p k k' b store hstack _ _ caller _ hk =>
    refine .keep (not_registers hstack (by simp)) rfl fun t tid hb => ?_
    have hbody : body k' ≠ [] := by
      rcases hk with ⟨-, rfl, -⟩ | ⟨-, rfl, -⟩ <;> exact body_own_ne_nil rfl rfl
    by_cases hid : t = s.gThreadID + 1
    · obtain ⟨k'', hk''⟩ := hb.1
      simp [hid] at hk''
    · refine ⟨⟨?_, fun heq => absurd (hb.2 heq) hbody⟩, ?_⟩
      · simpa [State.Joins, Function.update_of_ne hid] using hb.1
      · simp [Function.update_of_ne hid]
  | join tid k slot hstack hexited hslot =>
    subst hslot
    refine .join tid k rfl hstack hexited rfl ?_ (by simp) (fun t u ht => ?_) fun u => Iff.rfl
    · intro u hb
      obtain ⟨k', hk'⟩ := hb.1
      simp only [Function.update_self, Option.some.injEq, List.cons.injEq, Frame.joined.injEq]
        at hk'
      exact hk'.1.symm
    · simp [State.BlocksOn, State.Joins, ht]
  | sigWake c val lock k i u store store' hstack =>
    refine .keep (not_registers hstack (by simp)) rfl fun t tid hb => ?_
    have hbody : ∀ {v : Value}, body (.ret v :: k) ≠ [] := body_own_ne_nil rfl rfl
    by_cases htu : t = u
    · subst htu
      refine ⟨⟨?_, fun heq => absurd (hb.2 heq) hbody⟩, by simp⟩
      simpa [State.Joins] using hb.1
    · refine ⟨⟨?_, fun heq => absurd (hb.2 heq) hbody⟩, by simp [Function.update_of_ne htu]⟩
      simpa [State.Joins, Function.update_of_ne htu] using hb.1
  | exit val k hstack | leave k hstack =>
    exact .keep (not_registers hstack (by simp)) rfl fun _ _ => blocksOn_of_update rfl (by simp)
  | dispatchNew y u k store hstack =>
    refine .keep (not_registers hstack (by simp)) rfl fun t tid hb => ?_
    by_cases htu : t = u
    · exact absurd (hb.2 htu) (body_own_ne_nil rfl rfl)
    · refine ⟨⟨?_, fun _ => by rw [hstack]; rfl⟩, by simp [Function.update_of_ne htu]⟩
      simpa [State.Joins, Function.update_of_ne htu] using hb.1
  | dispatchOld y u k k' store hstack _ _ _ _ hcontext =>
    refine .keep (not_registers hstack (by simp)) rfl fun t tid hb => ⟨⟨hb.1, fun _ => ?_⟩, rfl⟩
    rw [hstack]
    rfl
  | semValue op i k v v' hstack _ hop =>
    refine .goes_on hstack ?_ rfl rfl rfl (body_own_ne_nil rfl rfl)
    rcases hop with ⟨rfl, -⟩ | ⟨rfl, -⟩ <;> simp
  | unlock _ _ _ hstack | lock _ _ _ hstack | semWake _ _ _ _ _ _ hstack | semFree _ _ _ hstack
  | newLock _ hstack | newCond _ _ hstack | newSem _ _ hstack | record _ _ hstack
  | insertWhole _ _ _ _ _ hstack | insertCall _ _ _ _ _ _ hstack
  | inserting _ _ _ _ _ _ _ _ _ hstack | inserted _ _ _ _ _ _ _ hstack
  | counted _ _ _ _ _ _ hstack =>
    exact .goes_on hstack (by simp) rfl rfl rfl (body_own_ne_nil rfl rfl)

/-- Whoever is blocked in `t_join` waits for the thread it joined. -/
def Targets (s : State) : Prop := ∀ t tid, s.BlocksOn t tid → (s.tcb t).waitingForTid = tid

theorem JoinMove.targets (h : JoinMove m s s') (ht : Targets s) : Targets s' := by
  intro t u hb
  cases h with
  | keep _ _ hblocks =>
    obtain ⟨hold, hwaiting⟩ := hblocks t u hb
    rw [hwaiting, ht t u hold]
  | join tid k _ _ _ _ hself hcaller hblocks =>
    by_cases hcur : t = s.currentRunningThread
    · subst hcur
      rw [hcaller, hself u hb]
    · obtain ⟨hiff, hwaiting⟩ := hblocks t u hcur
      rw [hwaiting, ht t u (hiff.mp hb)]

theorem nextSlot_lt : s.nextSlot < 50 := by
  unfold State.nextSlot
  split <;> omega

/-- A move keeps everyone registered exactly when it takes nobody's last slot. -/
theorem registered_step_iff (h : Trans g s m s') (hr : Regular s) (ht : Targets s)
    (hp : Registered s) : Registered s' ↔ SparesJoiners m s := by
  cases h.joinMove hr with
  | keep hnot htable hblocks =>
    refine iff_of_true (fun t u hb hliving => ?_) fun hm tid k hstack hexited => ?_
    · obtain ⟨hold, hwaiting⟩ := hblocks t u hb
      obtain ⟨j, hj, hslot, htarget⟩ := hp t u hold fun hend => hliving (h.ended_mono hend)
      exact ⟨j, hj, by rw [htable, hslot], by rw [hwaiting, htarget]⟩
    · exact absurd (hnot hm tid k hstack) hexited
  | join tid k hm hstack hexited htable hself hcaller hblocks hended =>
    constructor
    · intro hp' _ _ _ _ _ t u hcur hb hliving
      obtain ⟨j, hj, hslot, -⟩ := hp' t u ((hblocks t u hcur).1.mpr hb) (by rwa [hended])
      have hne : j ≠ s.nextSlot := by
        intro heq
        rw [htable, heq, Function.update_self, Option.some.injEq] at hslot
        exact hcur hslot.symm
      rw [htable, Function.update_of_ne hne] at hslot
      exact ⟨j, hj, hne, hslot⟩
    · intro hspares t u hb hliving
      by_cases hcur : t = s.currentRunningThread
      · subst hcur
        obtain rfl := hself u hb
        exact ⟨s.nextSlot, nextSlot_lt, by rw [htable, Function.update_self], hcaller⟩
      · obtain ⟨hiff, hwaiting⟩ := hblocks t u hcur
        rw [hended] at hliving
        obtain ⟨j, hj, hne, hslot⟩ :=
          hspares hm tid k hstack hexited t u hcur (hiff.mp hb) hliving
        refine ⟨j, hj, by rw [htable, Function.update_of_ne hne, hslot], ?_⟩
        rw [hwaiting, ht t u (hiff.mp hb)]

theorem Initial.registered (h : Initial s) : Targets s ∧ Registered s := by
  obtain ⟨f, v, p, hb⟩ := h.begun
  have hnone : ∀ t u, ¬ s.BlocksOn t u := by
    intro t u hblocks
    obtain ⟨k, hk⟩ := hblocks.1
    by_cases ht : t = 1
    · simp [hb.tcb, ht] at hk
    · simp [hb.tcb, Function.update_of_ne ht] at hk
  exact ⟨fun t u hb => absurd hb (hnone t u), fun t u hb => absurd hb (hnone t u)⟩

variable {s₀ : State} {path : List (Move × State)}

/-- In all states everyone blocked on a thread that has not ended has an entry that
its wake loop will find, exactly when no registration takes the last slot of
another such thread. -/
theorem registered_iff (h₀ : Initial s₀) (hpath : Path (step g) s₀ path s) :
    ((∀ x ∈ path, Registered x.2) ∧ Registered s) ↔ ∀ x ∈ path, SparesJoiners x.1 x.2 := by
  obtain ⟨ht₀, hp₀⟩ := h₀.registered
  have hany : ∀ x ∈ path, AnyTiming x.1 x.2 := fun _ _ => trivial
  refine hpath.forall_iff (P := Registered) (C := SparesJoiners)
    (I := fun a => Regular a ∧ Targets a) hany ⟨h₀.regular, ht₀⟩ hp₀ ?_
  intro m a b hI hp _ hstep
  obtain ⟨hr, ht⟩ := hI
  have h := step_trans hstep
  exact ⟨registered_step_iff h hr ht hp, fun _ => ⟨h.regular hr, (h.joinMove hr).targets ht⟩⟩

/-- Thread 1 forks threads 2, 3 and 4 and 25 more and joins thread 2. The 25 join
thread 3, are made ready by its end, and join thread 4. -/
def joinedTwiceByMany : List Move :=
  let fork (p : ℤ) : List Move := [.call (.tFork 0 .null p), .exec, .exec]
  [.exec, .exec] ++ fork 10 ++ fork 50 ++ fork 40 ++ (List.replicate 25 (fork 100)).flatten ++
    [.call (.tJoin 2), .exec] ++
    (List.replicate 25 [.exec, .exec, .call (.tJoin 3), .exec]).flatten ++
    [.exec, .exec, .finish] ++ List.replicate 129 .exec ++
    (List.replicate 25 [.exec, .exec, .exec, .call (.tJoin 4), .exec]).flatten

/-- No more than 50 threads are blocked in `t_join`. -/
def AtMostFifty (s : State) : Prop := s.blockedThreads.length ≤ 50

theorem atMostFifty (h : s.gThreadID ≤ 50) : AtMostFifty s := by
  refine (List.length_filter_le ..).trans ?_
  rw [List.length_map, List.length_range']
  exact Int.toNat_le.mpr h

/-- The last registration takes the slot of thread 1, which thread 2 will not find. -/
theorem joiner_overwritten :
    ∃ s₀ path s, Initial s₀ ∧ Path (step .routine) s₀ path s ∧
      (∀ x ∈ path, AtMostFifty x.2) ∧ AtMostFifty s ∧ ¬ Registered s := by
  obtain ⟨s₀, path, s, h₀, hpath, hok, hgood⟩ := exists_path .routine
    (fun _ s => s.gThreadID ≤ 50) [] 127 joinedTwiceByMany
    (fun s => s.gThreadID = 29 && s.currentRunningThread = 29 &&
      (s.tcb 1).context = some [.joined 2, .user] && !s.hist.contains (.ended 2) &&
      (List.range 50).all fun j => s.tcbWaiting j ≠ some 1) (by decide +kernel)
  simp only [Bool.and_eq_true, decide_eq_true_eq, Bool.not_eq_true', List.contains_eq_mem,
    decide_eq_false_iff_not, List.all_eq_true, List.mem_range] at hgood
  obtain ⟨⟨⟨⟨hid, hcur⟩, hcontext⟩, hended⟩, hslots⟩ := hgood
  refine ⟨s₀, path, s, h₀, hpath, fun x hx => atMostFifty (hok x hx), atMostFifty ?_, fun hs => ?_⟩
  · rw [hid]
    decide
  · obtain ⟨j, hj, hslot, -⟩ := hs 1 2 ⟨⟨[.user], hcontext⟩, by simp [hcur]⟩ hended
    exact hslots j hj hslot

/-- A thread blocks in `t_join` and is registered. -/
theorem registered_iff_join :
    ∃ (s₀ : State) (path : List (Move × State)) (s : State), Initial s₀ ∧
      (s.tcb 1).context = some [.joined 2, .user] ∧
      (((∀ x ∈ path, Registered x.2) ∧ Registered s) ↔ ∀ x ∈ path, SparesJoiners x.1 x.2) := by
  obtain ⟨s₀, path, s, h₀, hpath, -, hgood⟩ := exists_path .statement AnyTiming [] 127
    [.exec, .exec, .call (.tFork 0 .null 126), .exec, .exec, .call (.tJoin 2), .exec]
    (fun s => (s.tcb 1).context = some [.joined 2, .user]) (by decide +kernel)
  exact ⟨s₀, path, s, h₀, by simpa using hgood, registered_iff h₀ hpath⟩

end UserThreads.Threads
