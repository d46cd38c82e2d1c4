import UserThreads.Priorities
import UserThreads.WaitSignal

/-!
Which thread a `t_sig` wakes. The counters of a condition are those of its queues and
every waiter is in the queue of its priority, whatever the timing; so the scan finds the
highest priority that waits. That the waiter then comes to the end of its ready queue
depends on this queue, which is right as long as the timer does not fire while the wake
loop inserts.
-/
namespace UserThreads.Threads

open LinkedCells Queue Runs

/-- The counters, the priorities and the order of the waiters of a condition. -/
structure WaitersOk (s : State) (c : CondId) : Prop where
  count : ∀ p, s.conditionWaiters c p = (s.contents (.cond c p)).length
  priority : ∀ p, ∀ t ∈ s.contents (.cond c p), (s.tcb t).priority = p ∧ 0 ≤ p ∧ p < 128
  order : ∀ p, insertedAt (.cond c p) s.hist =
    removedAt (.cond c p) s.hist ++ s.contents (.cond c p)

/-- The thread that waits longest in its queue, of the highest priority that waits, goes to the
end of the ready queue of its priority, and nothing else is changed. -/
structure Moved (s s' : State) (c : CondId) (lock : Option LockId) (p : ℤ) (t : Tid) : Prop where
  first : s.contents (.cond c p) = t :: s'.contents (.cond c p)
  highest : ∀ p', ∀ u ∈ s.contents (.cond c p'), (s.tcb u).priority ≤ (s.tcb t).priority
  last : s'.contents (.ready (s.tcb t).priority) = s.contents (.ready (s.tcb t).priority) ++ [t]
  others : ∀ q, q ≠ .cond c p → q ≠ .ready (s.tcb t).priority → s'.contents q = s.contents q
  counter : ∀ q, s'.counter q =
    if q = .cond c p then s.counter q - 1
    else if q = .ready (s.tcb t).priority then s.counter q + 1 else s.counter q
  tcb : s'.tcb = Function.update s.tcb t { s.tcb t with arg := lockPtr lock }

/-- What a `t_sig` that is next does: it wakes a waiter, or there is none and it does nothing. -/
def SignalsFirst (s : State) : Prop :=
  ∀ c v lock k, s.stack = .enter (.tSig c v lock) :: k → s.conditions c ≠ none →
    ∃ s', step .statement .exec s = some s' ∧
      ((∀ p, s.contents (.cond c p) = []) ∧ s'.contents = s.contents ∧ s'.counter = s.counter ∧
          s'.tcb = s.tcb ∨
        ∃ p t, Moved s s' c lock p t)

/-- A waiter has the priority of its queue. -/
def FitsWaiter (s : State) (q : QRef) (t : Tid) : Prop :=
  t ≤ s.gThreadID ∧ ∀ c p, q = .cond c p → (s.tcb t).priority = p

/-- A condition that was created has rows in the tables. -/
def CondsOk (s : State) : Prop := ∀ c, s.conditions c ≠ none → c < s.cap.conditions

variable {g : Grain} {s s' s₀ : State} {m : Move} {c : CondId} {lock : Option LockId}
  {k : List Frame} {t : Tid} {p : ℤ} {q : QRef}

theorem Trans.fitsWaiter (h : Trans g s m s') (hq : QueuesOk WaitQueues s) (ht : TidsOk s)
    (hb : Booked (fun _ => False) (FitsWaiter s) s) :
    Booked (fun _ => False) (FitsWaiter s') s' := by
  have hle := h.gThreadID_le
  have hmono : ∀ q t, FitsWaiter s q t → FitsWaiter s' q t := by
    intro q t h'
    obtain ⟨hid, hlevel⟩ := h'
    exact ⟨le_trans hid hle, fun c p hp => (h.priority hid).trans (hlevel c p hp)⟩
  obtain ⟨owner, hl, hins⟩ := hb
  refine h.booked ⟨owner, hl.mono_fits hmono, hins⟩ (fun p => hq.cond _ p le_rfl)
    (hq.sem _ (Nat.lt_succ_self _)) (steady_of_not_ready fun _ => id) ?_
  intro q t henq
  cases henq with
  | suspend q f k next hsus =>
    refine ⟨le_trans ht.current hle, fun c p hp => ?_⟩
    rw [h.priority ht.current]
    cases hsus with
    | wait => exact (QRef.cond.inj hp).2
    | yield | timer | pass => cases hp
  | fork f v p k hstack hid => exact ⟨le_of_eq hid.symm, by simp⟩
  | signal c val lock k i t hstack hid hfit => exact ⟨hfit.1, by simp⟩
  | release i k t store hm hstack hid hrem hfit => exact ⟨hfit.1, by simp⟩
  | wake i t k hstack =>
    exact ⟨le_trans (ht.insert i t (Or.inl (by simp [hstack]))) hle, by simp⟩

theorem CondsOk.create {o : Option Condition} (hc : CondsOk s)
    (hid : s.conditionID < s.cap.conditions) (hcap : s'.cap = s.cap)
    (hconds : s'.conditions = Function.update s.conditions s.conditionID o) : CondsOk s' := by
  intro c hne
  rw [hcap]
  by_cases hid' : c = s.conditionID
  · exact hid' ▸ hid
  · rw [hconds, Function.update_of_ne hid'] at hne
    exact hc c hne

theorem Trans.condsOk (h : Trans g s m s') (hc : CondsOk s) : CondsOk s' := by
  cases h with
  | newCond lock k hstack hid => exact hc.create hid rfl rfl
  | _ => exact hc

theorem Initial.condsOk (h : Initial s) : CondsOk s := by
  obtain ⟨a, f, v, p, store, ha, -, -, rfl⟩ := h.spec
  refine ha.invariant (I := CondsOk) (fun _ c hc => absurd rfl hc) fun call a b ha hcall => ?_
  cases call with
  | lock | sem =>
    cases hcall
    exact ha
  | cond lock =>
    simp only [Threads.mainCall, newCond, Option.bind_eq_bind, Option.bind_eq_some_iff,
      Option.some.injEq] at hcall
    obtain ⟨_, hid, rfl⟩ := hcall
    exact ha.create (of_guard hid) rfl rfl

/-- What holds in every run of the waiters. -/
structure Waited (s : State) : Prop where
  queues : QueuesOk WaitQueues s
  tids : TidsOk s
  fits : Booked (fun _ => False) (FitsWaiter s) s
  table : Booked (fun _ => False) InTable s
  conds : CondsOk s

theorem waited_of_run {ok : Move → State → Prop} (h₀ : Initial s₀)
    (hrun : Run (step g) ok s₀ s) : Waited s := by
  refine hrun.invariant (I := Waited) ⟨h₀.queuesOk, h₀.tidsOk, h₀.booked fun p _ => ⟨?_, by simp⟩,
    h₀.booked fun _ _ => trivial, h₀.condsOk⟩ fun m a b hI _ hstep => ?_
  · obtain ⟨f, v, p, hb⟩ := h₀.begun
    exact le_of_eq hb.gThreadID.symm
  · have h := step_trans hstep
    exact ⟨h.queuesOk hI.queues steady_waitQueues, h.tidsOk hI.queues hI.tids,
      h.fitsWaiter hI.queues hI.tids hI.fits, h.inTable hI.queues hI.table, h.condsOk hI.conds⟩

theorem Waited.waitersOk (h : Waited s) (c : CondId) : WaitersOk s c where
  count p := (h.queues.contents (q := .cond c p) (by simp [WaitQueues])).1
  priority p t ht := ⟨(h.fits.fits_of_mem ht).2 c p rfl, h.table.fits_of_mem ht⟩
  order p := (h.queues.contents (q := .cond c p) (by simp [WaitQueues])).2

/-- Without waiters the scan finds nothing. -/
theorem WaitersOk.scan_none (h : WaitersOk s c) :
    scan (s.conditionWaiters c) 128 = none ↔ ∀ p, s.contents (.cond c p) = [] := by
  rw [scan_eq_none]
  constructor
  · intro hzero p
    cases hp : s.contents (.cond c p) with
    | nil => rfl
    | cons t rest =>
      obtain ⟨-, h0, hlt⟩ := h.priority p t (by simp [hp])
      have hcount := h.count p
      rw [hzero p h0 hlt, hp, List.length_cons] at hcount
      omega
  · intro hempty p _ _
    rw [h.count, hempty]
    rfl

/-- The first waiter at the level that the scan finds has the highest priority. -/
theorem WaitersOk.scan_some (h : WaitersOk s c) (hscan : scan (s.conditionWaiters c) 128 = some p) :
    0 ≤ p ∧ p < 128 ∧ ∃ t rest, s.contents (.cond c p) = t :: rest ∧ (s.tcb t).priority = p ∧
      ∀ p', ∀ u ∈ s.contents (.cond c p'), (s.tcb u).priority ≤ p := by
  obtain ⟨h0, hlt, hne, hhigh⟩ := scan_spec hscan
  cases hp : s.contents (.cond c p) with
  | nil =>
    rw [h.count, hp] at hne
    exact absurd rfl hne
  | cons t rest =>
    refine ⟨h0, hlt, t, rest, rfl, (h.priority p t (by simp [hp])).1, fun p' u hu => ?_⟩
    obtain ⟨hprio, -, hlt'⟩ := h.priority p' u hu
    rw [hprio]
    by_contra habove
    have hzero := hhigh p' (not_le.mp habove) hlt'
    rw [h.count] at hzero
    rw [List.length_eq_zero_iff.mp (Int.ofNat_eq_zero.mp hzero)] at hu
    cases hu

/-- The waiter can be moved when the queues are right. -/
theorem QueuesOk.move {rest : List Tid} (hq : QueuesOk AllQueues s)
    (hwaits : s.contents (.cond c p) = t :: rest) (hp : 0 ≤ p ∧ p < 128) :
    ∃ store store', s.store.qIsEmpty (.cond c p) = some false ∧
      s.store.qRemove (.cond c p) = some (some t, store) ∧
      store.qInsert (.ready p) s.fresh t = some store' := by
  obtain ⟨owner, hl, -⟩ := hq.booked
  obtain ⟨xs, hchain, -, -⟩ := hl.queue (.cond c p) trivial
  have hxs : xs.map Prod.snd = t :: rest := hchain.contents_eq.symm.trans hwaits
  cases xs with
  | nil => cases hxs
  | cons x xs =>
    obtain ⟨a, u⟩ := x
    obtain ⟨rfl, -⟩ := List.cons.inj hxs
    have hholds : Holds s.store (.cond c p) ((a, u) :: xs) := by
      rcases hchain with ⟨-, hnil⟩ | hholds
      · cases hnil
      · exact hholds
    obtain ⟨store, hrem, -⟩ := hholds.qRemove
    have hl' := hl.remove hrem
    obtain ⟨ys, hchain', -⟩ := hl'.queue (.ready p) trivial
    have hthere : store.queues (.ready p) ≠ none := fun hnone =>
      (hq.ready p).mp ((qRemove_none hrem).mp hnone) hp
    obtain ⟨store', hins, -⟩ := (hchain'.holds hthere).qInsert hl'.free u
    refine ⟨store, store', ?_, hrem, hins⟩
    simp only [Store.qIsEmpty, hholds.record, Option.bind_eq_bind, Option.bind_some,
      Option.some.injEq, decide_eq_false_iff_not, List.length_cons]
    omega

/-- A `t_sig` on a condition without waiters. -/
theorem tSig_none (hc : s.conditions c ≠ none) (hslot : c < s.cap.conditions)
    (hscan : scan (s.conditionWaiters c) 128 = none) :
    tSig k s c lock = some (s.enableTimer.goto (.ret .void :: k)) := by
  obtain ⟨o, ho⟩ := Option.ne_none_iff_exists'.mp hc
  unfold State.conditionWaiters at hscan
  simp [tSig, hscan, State.disableTimer, State.enableTimer, State.goto, ho, hslot]

/-- A `t_sig` that finds a waiter. -/
theorem tSig_some {store store' : Store QRef Tid} (hc : s.conditions c ≠ none)
    (hslot : c < s.cap.conditions) (hscan : scan (s.conditionWaiters c) 128 = some p)
    (hp : 0 ≤ p ∧ p < 128) (hempty : s.store.qIsEmpty (.cond c p) = some false)
    (hrem : s.store.qRemove (.cond c p) = some (some t, store))
    (hprio : (s.tcb t).priority = p) (hins : store.qInsert (.ready p) s.fresh t = some store') :
    ∃ s', tSig k s c lock = some s' ∧
      s'.tcb = Function.update s.tcb t { s.tcb t with arg := lockPtr lock } ∧
      s'.counter = Function.update (Function.update s.counter (.cond c p)
        (s.counter (.cond c p) - 1)) (.ready p) (s.counter (.ready p) + 1) ∧
      s'.hist = .inserted (.ready p) t :: .removed (.cond c p) t :: s.hist := by
  subst hprio
  obtain ⟨o, ho⟩ := Option.ne_none_iff_exists'.mp hc
  unfold State.conditionWaiters at hscan
  have hslots : s.cap.hasSlot (.cond c (s.tcb t).priority) = true ∧
      s.cap.hasSlot (.ready (s.tcb t).priority) = true := by
    simp [Capacity.hasSlot, hslot, hp]
  refine ⟨_, by
    simp [tSig, hscan, State.disableTimer, ho, hslot, hempty, State.dequeue, hslots, hrem,
      State.setTcb, State.enqueue, hins]
    rfl, rfl, ?_, rfl⟩
  simp [State.goto, State.enableTimer]

/-- What the step of a `t_sig` does when all queues are right. -/
theorem signals_first (hq : QueuesOk AllQueues s) (hw : Waited s) : SignalsFirst s := by
  intro c v lock k hstack hc
  have hok := hw.waitersOk c
  have hslot := hw.conds c hc
  have hexec : step .statement .exec s = tSig k s c lock := by
    simp [step, exec, hstack, enter]
  rw [hexec]
  cases hscan : scan (s.conditionWaiters c) 128 with
  | none =>
    exact ⟨_, tSig_none hc hslot hscan, Or.inl ⟨hok.scan_none.mp hscan, rfl, rfl, rfl⟩⟩
  | some p =>
    obtain ⟨h0, hlt, t, rest, hwaits, hprio, hhigh⟩ := hok.scan_some hscan
    obtain ⟨store, store', hempty, hrem, hins⟩ := hq.move hwaits ⟨h0, hlt⟩
    obtain ⟨s', hsig, htcb, hcounter, hhist⟩ :=
      tSig_some hc hslot hscan ⟨h0, hlt⟩ hempty hrem hprio hins
    refine ⟨s', hsig, Or.inr ⟨p, t, ?_⟩⟩
    have hq' : QueuesOk AllQueues s' :=
      (step_trans (hexec.trans hsig)).queuesOk hq fun _ f k' hstack' hf => by
        rw [hstack] at hstack'
        cases hstack'
        cases hf
    subst hprio
    refine ⟨?_, hhigh, ?_, fun q hne hne' => ?_, fun q => ?_, htcb⟩
    · exact hq.contents_removed hq' trivial (by simp [hhist, insertedAt])
        (by simp [hhist, removedAt])
    · exact hq.contents_inserted hq' trivial [t] (by simp [hhist, insertedAt])
        (by simp [hhist, removedAt])
    · exact hq.contents_same hq' trivial (by simp [hhist, insertedAt, Ne.symm hne'])
        (by simp [hhist, removedAt, Ne.symm hne])
    · rw [hcounter]
      by_cases hready : q = .ready (s.tcb t).priority
      · subst hready
        simp
      · rw [Function.update_of_ne hready, if_neg hready]
        by_cases hcond : q = .cond c (s.tcb t).priority
        · subst hcond
          simp
        · rw [Function.update_of_ne hcond, if_neg hcond]

/-- If the timer never fires inside an insertion of the wake loop, the waiters of every
condition are counted, at the level of their priority and in the order in which they came, and
every `t_sig` wakes the first one of the highest priority. -/
theorem t_sig_wakes_first (h₀ : Initial s₀) (hrun : Run (step .statement) NoSplit s₀ s) :
    (∀ c, WaitersOk s c) ∧ SignalsFirst s := by
  have hw := waited_of_run h₀ hrun
  refine ⟨hw.waitersOk, fun c v lock k hstack => ?_⟩
  obtain ⟨-, hs⟩ := sound_of_run h₀ hrun
  exact signals_first (hs.queues (hs.not_inserting hstack rfl)) hw c v lock k hstack

/-- Thread 2 ends while thread 1 joins it and thread 5 waits. It is preempted when it has linked
thread 1 to the last node of the queue, and again when it has made thread 1 the tail, which by
then follows no node of the queue. -/
def preemptedTwice : List Move :=
  [.exec, .exec] ++ (List.replicate 4 [.call (.tFork 0 .null 127), .exec, .exec]).flatten ++
    [.call (.tJoin 2), .exec, .exec, .exec] ++
    (List.replicate 3 [.call .tYield, .exec, .exec, .exec]).flatten ++
    [.call (.tWait 0 none), .exec, .exec, .exec, .exec, .exec] ++
    [.finish, .exec, .exec, .exec, .exec, .exec, .expire, .exec, .exec, .exec, .exec, .exec] ++
    [.call .tYield, .exec, .exec, .exec, .exec] ++
    [.call .tYield, .exec, .exec, .exec, .exec, .exec] ++
    [.expire, .exec, .exec, .exec, .exec, .exec, .call (.tSig 0 .null none)]

/-- The `t_sig` of thread 3 puts the waiter behind that tail, and so into no list. -/
theorem signal_into_no_list :
    ¬ ∀ s₀ s, Initial s₀ → Run (step .statement) AnyTiming s₀ s →
      (∀ c, WaitersOk s c) ∧ SignalsFirst s := by
  intro hall
  obtain ⟨s₀, s, h₀, hrun, hgood⟩ := exists_run .statement AnyTiming [.cond none] 127
    preemptedTwice (fun s => (s.stack = [.enter (.tSig 0 .null none), .user] ∧
      (s.conditions 0).isSome = true) ∧ s.contents (.cond 0 127) = [5] ∧
      s.contents (.ready 127) = [4] ∧
      (step .statement .exec s).all fun s' => s'.contents (.ready 127) = [4]) (by decide +kernel)
  obtain ⟨⟨hstack, hcond⟩, hwaits, hready, hstep⟩ := of_decide_eq_true hgood
  obtain ⟨hok, hfirst⟩ := hall s₀ s h₀ hrun
  obtain ⟨s', hsig, hnone | ⟨p, t, hmoved⟩⟩ :=
    hfirst 0 .null none _ hstack (Option.isSome_iff_ne_none.mp hcond)
  · have hnil := hnone.1 127
    rw [hwaits] at hnil
    cases hnil
  · have hready' : s'.contents (.ready 127) = [4] := by simpa [hsig] using hstep
    obtain ⟨hprio, -, hlt⟩ := (hok 0).priority p t (by rw [hmoved.first]; simp)
    obtain ⟨hfive, -⟩ := (hok 0).priority 127 5 (by rw [hwaits]; simp)
    have hle := hmoved.highest 127 5 (by rw [hwaits]; simp)
    have hlevel : (s.tcb t).priority = 127 := by omega
    have hlast := hmoved.last
    rw [hlevel, hready, hready'] at hlast
    simp at hlast

/-- A thread waits when another one signals. -/
theorem t_sig_wakes_first_waiter :
    ∃ s₀ s : State, Initial s₀ ∧ s.contents (.cond 0 127) = [1] ∧
      (∀ c, WaitersOk s c) ∧ SignalsFirst s := by
  obtain ⟨s₀, s, h₀, hrun, hgood⟩ := exists_run .statement NoSplit [.cond none] 127
    [.exec, .exec, .call (.tFork 0 .null 126), .exec, .exec, .call (.tWait 0 none), .exec, .exec,
     .exec, .exec, .call (.tSig 0 .null none)]
    (fun s => s.contents (.cond 0 127) = [1]) (by decide +kernel)
  exact ⟨s₀, s, h₀, of_decide_eq_true hgood, t_sig_wakes_first h₀ hrun⟩

end UserThreads.Threads
