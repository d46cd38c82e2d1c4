import UserThreads.Tids
import UserThreads.Atomicity

/-!
Whether the ready queues respect priorities. Every routine computes the level at
which it makes a thread ready; all use the thread's own priority but
`Semaphore_V`, which uses the caller's. Threads lie at the level of their
priority exactly as long as that makes no difference, and then `Scheduler`
chooses a thread of the highest priority that is ready.
-/
namespace UserThreads.Threads

open LinkedCells Queue Runs MultilevelQueue

/-- Every ready thread is at the level of its own priority. -/
def InPlace (s : State) : Prop :=
  ∀ p, ∀ t ∈ s.contents (.ready p), (s.tcb t).priority = p

/-- `Scheduler` is at its scan and will choose the thread. -/
def State.Chooses (s : State) (t : Tid) : Prop :=
  ∃ k y store, s.stack = .sched :: k ∧ scan s.threadLevelCount 128 = some y ∧
    s.store.qRemove (.ready y) = some (some t, store)

/-- Threads are in place, and what `Scheduler` chooses has the highest priority. -/
structure HighestFirst (s : State) : Prop where
  inPlace : InPlace s
  chosen : ∀ t, s.Chooses t → ∀ p, ∀ u ∈ s.contents (.ready p),
    (s.tcb u).priority ≤ (s.tcb t).priority

/-- A waiter that `Semaphore_V` wakes has the priority of the caller. -/
def KeepsPriority (m : Move) (s : State) : Prop :=
  m = .exec → ∀ i k t rest, s.stack = .enter (.semaphoreV i) :: k →
    s.contents (.sem i) = t :: rest → (s.tcb t).priority = s.current.priority

/-- The semaphore on which `Semaphore_V` has been called and not yet executed. -/
def State.releases (s : State) : Option SemId :=
  match s.stack with
  | .enter (.semaphoreV i) :: _ => some i
  | _ => none

theorem State.releases_eq_some {s : State} {i : SemId} :
    s.releases = some i ↔ ∃ k, s.stack = .enter (.semaphoreV i) :: k := by
  unfold State.releases
  split
  · rename_i hstack
    simp [hstack]
  · rename_i hnot
    simpa using fun k hk => hnot i k hk

instance (m : Move) (s : State) : Decidable (KeepsPriority m s) :=
  decidable_of_iff (m = .exec → ∀ i ∈ s.releases, ∀ t ∈ (s.contents (.sem i)).head?,
      (s.tcb t).priority = s.current.priority) <| forall_congr' fun _ => by
    constructor
    · intro h i k t rest hstack hwaits
      exact h i (State.releases_eq_some.mpr ⟨k, hstack⟩) t (by simp [hwaits])
    · intro h i hi t ht
      obtain ⟨k, hstack⟩ := State.releases_eq_some.mp hi
      obtain ⟨rest, hwaits⟩ := List.head?_eq_some_iff.mp ht
      exact h i k t rest hstack hwaits

/-- A thread whose tid has been handed out, at the level of its priority if in a
ready queue. -/
def FitsPriority (s : State) (q : QRef) (t : Tid) : Prop :=
  t ≤ s.gThreadID ∧ ∀ p, q = .ready p → (s.tcb t).priority = p

variable {g : Grain} {s s' : State} {m : Move} {t : Tid} {q : QRef} {p : ℤ}
  {good : QRef → Prop} {fits : QRef → Tid → Prop}

/-- A tcb keeps its priority. -/
theorem Trans.priority (h : Trans g s m s') (ht : t ≤ s.gThreadID) :
    (s'.tcb t).priority = (s.tcb t).priority := by
  have hupdate : ∀ (u : Tid) (c : Tcb), c.priority = (s.tcb u).priority →
      (Function.update s.tcb u c t).priority = (s.tcb t).priority := by
    intro u c hc
    by_cases htu : t = u
    · rw [htu, Function.update_self, hc]
    · rw [Function.update_of_ne htu]
  cases h with
  | suspend | join | sigWake | exit | leave | dispatchNew => exact hupdate _ _ rfl
  | fork =>
    have hne : t ≠ s.gThreadID + 1 := ne_of_lt (lt_of_le_of_lt ht (lt_next _))
    exact congrArg Tcb.priority (Function.update_of_ne hne ..)
  | _ => rfl

/-- A step keeps the levels if `Semaphore_V` does. -/
theorem Trans.fitsPriority (h : Trans g s m s') (hq : QueuesOk WaitQueues s)
    (ht : TidsOk s) (hb : Booked (fun _ => False) (FitsPriority s) s)
    (hkeep : KeepsPriority m s) : Booked (fun _ => False) (FitsPriority s') s' := by
  have hle := h.gThreadID_le
  have hmono : ∀ q t, FitsPriority s q t → FitsPriority s' q t := by
    intro q t h'
    obtain ⟨hid, hlevel⟩ := h'
    exact ⟨le_trans hid hle, fun p hp => (h.priority hid).trans (hlevel p hp)⟩
  obtain ⟨owner, hl, hins⟩ := hb
  refine h.booked ⟨owner, hl.mono_fits hmono, hins⟩ (fun p => hq.cond _ p le_rfl)
    (hq.sem _ (Nat.lt_succ_self _)) (steady_of_not_ready fun _ => id) ?_
  intro q t henq
  cases henq with
  | suspend q f k next hsus =>
    refine ⟨le_trans ht.current hle, fun p hp => ?_⟩
    rw [h.priority ht.current]
    cases hsus with
    | yield | timer => exact (QRef.ready.inj hp)
    | wait | pass => cases hp
  | fork f v p k hstack hid htcb =>
    refine ⟨le_of_eq hid.symm, fun p' hp => ?_⟩
    rw [htcb, Function.update_self]
    exact QRef.ready.inj hp
  | signal c val lock k i t hstack hid hfit =>
    refine ⟨hfit.1, fun p hp => ?_⟩
    rw [h.priority (hid ▸ hfit.1)]
    exact QRef.ready.inj hp
  | release i k t store hm hstack hid hrem hfit =>
    refine ⟨hfit.1, fun p hp => ?_⟩
    obtain ⟨rest, hrest⟩ := hq.head (q := .sem i) (by simp [WaitQueues]) hrem
    rw [h.priority (hid ▸ hfit.1), hkeep hm i k t rest hstack hrest]
    exact QRef.ready.inj hp
  | wake i t k hstack =>
    have hid := ht.insert i t (Or.inl (by simp [hstack]))
    exact ⟨le_trans hid hle, fun p hp => (h.priority hid).trans (QRef.ready.inj hp)⟩

theorem inPlace_of_booked (hb : Booked (fun _ => False) (FitsPriority s) s) : InPlace s :=
  fun p _ ht => (hb.fits_of_mem ht).2 p rfl

/-- When all queues are right and threads are in place, the scan finds a thread of
the highest priority. -/
theorem InPlace.highestFirst (h : InPlace s) (hs : Sound s) : HighestFirst s := by
  refine ⟨h, ?_⟩
  intro t h' p u hu
  obtain ⟨k, y, store, hstack, hscan, hrem⟩ := h'
  have hq : QueuesOk AllQueues s := hs.queues (hs.not_inserting hstack rfl)
  obtain ⟨rest, hhead⟩ := hq.head trivial hrem
  obtain ⟨-, -, -, hhigh⟩ := scan_spec hscan
  have htake : Step (.take y t) (levels s) ((levels s).set y rest) :=
    .take _ y t rest hhead fun p' hp' => hq.levels_empty fun _ hlt => hhigh p' hp' hlt
  have hplaced : Placed (fun u => (s.tcb u).priority) (levels s) := h
  exact hplaced.take_max htake hu

/-- `Semaphore_V` puts the first waiter at the level of the caller. -/
theorem semaphoreV_wakes {i : SemId} {k : List Frame} {rest : List Tid}
    (h : semaphoreV k s i = some s') (hq : QueuesOk AllQueues s) (hq' : QueuesOk AllQueues s')
    (hwaits : s.contents (.sem i) = t :: rest) :
    t ∈ s'.contents (.ready s.current.priority) := by
  simp only [semaphoreV, Option.bind_eq_bind, Option.bind_eq_some_iff] at h
  obtain ⟨v, -, _, -, h⟩ := h
  split at h
  · simp only [Option.bind_eq_some_iff, Option.some.injEq] at h
    obtain ⟨⟨u, s₁⟩, hdeq, s₂, henq, rfl⟩ := h
    obtain ⟨-, store, hrem, rfl⟩ := dequeue_spec hdeq
    obtain ⟨-, store', -, rfl⟩ := enqueue_spec henq
    obtain ⟨rest', hhead⟩ := hq.head (q := .sem i) trivial hrem
    rw [hwaits] at hhead
    cases hhead
    have hmore := hq.contents_inserted hq' (q := .ready s.current.priority) trivial [t]
      (by simp [State.enableTimer, State.goto, State.disableTimer, State.current, insertedAt])
      (by simp [State.enableTimer, State.goto, State.disableTimer, removedAt])
    rw [hmore]
    exact List.mem_append_right _ (List.mem_singleton_self t)
  · rename_i hcount
    have hlength := (hq.contents (q := .sem i) trivial).1
    rw [hwaits] at hlength
    refine absurd ?_ hcount
    show 0 < s.counter (.sem i)
    rw [hlength]
    exact Int.natCast_pos.mpr (Nat.succ_pos _)

/-- A move keeps every thread in place exactly when `Semaphore_V` does. -/
theorem highestFirst_step_iff (hstep : step .statement m s = some s') (hr : Regular s)
    (hns : NoSplit m s) (hs : Sound s) (hq : QueuesOk WaitQueues s) (ht : TidsOk s)
    (hb : Booked (fun _ => False) (FitsPriority s) s) : HighestFirst s' ↔ KeepsPriority m s := by
  have h := step_trans hstep
  constructor
  · rintro ⟨hplace, -⟩ rfl i k t rest hstack hwaits
    have hall : QueuesOk AllQueues s := hs.queues (hs.not_inserting hstack rfl)
    have hall' : QueuesOk AllQueues s' := h.queuesOk hall fun _ f k' hstack' hf => by
      rw [hstack] at hstack'
      cases hstack'
      cases hf
    have hid : t ≤ s.gThreadID := (hb.fits_of_mem (q := .sem i) (by simp [hwaits])).1
    rw [← h.priority hid]
    refine hplace _ t (semaphoreV_wakes (k := k) ?_ hall hall' hwaits)
    simpa [step, exec, hstack, enter] using hstep
  · intro hkeep
    exact (inPlace_of_booked (h.fitsPriority hq ht hb hkeep)).highestFirst (h.sound hr hns hs)

theorem Initial.fitsPriority (h : Initial s) : Booked (fun _ => False) (FitsPriority s) s := by
  refine h.booked fun p hp => ⟨?_, ?_⟩
  · obtain ⟨f, v, p, hb⟩ := h.begun
    exact le_of_eq hb.gThreadID.symm
  · intro p' hp'
    rw [hp]
    exact QRef.ready.inj hp'

variable {s₀ : State} {path : List (Move × State)}

/-- If the timer never fires in the epilogue of `incrementStack`, threads are in place in
every state and every dispatch takes one of the highest priority exactly when `Semaphore_V`
wakes only threads of the caller's priority. -/
theorem highest_first_iff (h₀ : Initial s₀) (hpath : Path (step .statement) s₀ path s)
    (hwhole : ∀ x ∈ path, EpilogueWhole x.1 x.2) :
    ((∀ x ∈ path, HighestFirst x.2) ∧ HighestFirst s) ↔
      ∀ x ∈ path, KeepsPriority x.1 x.2 := by
  refine hpath.forall_iff (P := HighestFirst) (C := KeepsPriority) (I := fun a => Regular a ∧
    Sound a ∧ QueuesOk WaitQueues a ∧ TidsOk a ∧ Booked (fun _ => False) (FitsPriority a) a)
    hwhole ⟨h₀.regular, h₀.sound, h₀.queuesOk, h₀.tidsOk, h₀.fitsPriority⟩
    ((inPlace_of_booked h₀.fitsPriority).highestFirst h₀.sound) ?_
  intro m a b h' _ hwhole hstep
  obtain ⟨hr, hs, hq, ht, hb⟩ := h'
  have htrans := step_trans hstep
  have hiff := highestFirst_step_iff hstep hr hwhole.noSplit hs hq ht hb
  exact ⟨hiff, fun hfirst => ⟨htrans.regular hr, htrans.sound hr hwhole.noSplit hs,
    htrans.queuesOk hq steady_waitQueues, htrans.tidsOk hq ht,
    htrans.fitsPriority hq ht hb (hiff.mp hfirst)⟩⟩

/-- A thread of priority 127 waits on a semaphore; one of priority 125 releases it
and forks a third one of priority 126. -/
def releasedByLower : List Move :=
  [.exec, .exec, .call (.tFork 0 .null 125), .exec, .exec, .call (.semaphoreP 1), .exec,
   .exec, .exec, .call (.semaphoreV 1), .exec, .exec, .call (.tFork 0 .null 126), .exec, .exec]

/-- The third thread is then chosen before the first. -/
theorem lower_chosen_first :
    ∃ s₀ path s t u p, Initial s₀ ∧ Path (step .statement) s₀ path s ∧ s.Chooses t ∧
      u ∈ s.contents (.ready p) ∧ (s.tcb t).priority < (s.tcb u).priority := by
  obtain ⟨s₀, path, s, h₀, hpath, -, hgood⟩ := exists_path .statement AnyTiming [.sem 0] 127
    releasedByLower
    (fun s => s.stack = [.sched] && scan s.threadLevelCount 128 = some 126 &&
      (s.store.qRemove (.ready 126)).any (fun x => x.1 = some 3) &&
      s.contents (.ready 125) = [1, 2] && (s.tcb 3).priority = 126 && (s.tcb 1).priority = 127)
    (by decide +kernel)
  simp only [Bool.and_eq_true, decide_eq_true_eq, Option.any_eq_true] at hgood
  obtain ⟨⟨⟨⟨⟨hstack, hscan⟩, ⟨obj, store⟩, hrem, rfl⟩, hcontents⟩, hlow⟩, hhigh⟩ := hgood
  refine ⟨s₀, path, s, 3, 1, 125, h₀, hpath, ⟨[], 126, store, hstack, hscan, hrem⟩, ?_, ?_⟩
  · simp [hcontents]
  · rw [hlow, hhigh]
    decide

/-- Thread 2 releases a semaphore on which thread 1, of the same priority, waits. -/
theorem highest_first_iff_released :
    ∃ s₀ path s, Initial s₀ ∧ Path (step .statement) s₀ path s ∧
      (path.any fun x => x.2.releases = some 1 ∧ x.2.contents (.sem 1) = [1]) = true ∧
      s.contents (.ready 127) = [1] ∧ HighestFirst s := by
  obtain ⟨s₀, path, s, h₀, hpath, hok, hgood⟩ := exists_tracked .statement
    (fun m s => EpilogueWhole m s ∧ KeepsPriority m s) [.sem 0] 127
    [.exec, .exec, .call (.tFork 0 .null 127), .exec, .exec, .call (.semaphoreP 1), .exec, .exec,
     .exec, .call (.semaphoreV 1), .exec]
    (fun _ path s => (path.any fun x => x.2.releases = some 1 ∧ x.2.contents (.sem 1) = [1]) &&
      s.contents (.ready 127) = [1]) (by decide +kernel)
  simp only [Bool.and_eq_true, decide_eq_true_eq] at hgood
  obtain ⟨hreleased, hcontents⟩ := hgood
  have hiff := highest_first_iff h₀ hpath fun x hx => (hok x hx).1
  exact ⟨s₀, path, s, h₀, hpath, hreleased, hcontents,
    (hiff.mpr fun x hx => (hok x hx).2).2⟩

end UserThreads.Threads
