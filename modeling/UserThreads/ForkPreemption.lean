import UserThreads.RoundRobin
import UserThreads.Endings
import UserThreads.Placement
import UserThreads.Priorities

/-!
What `t_fork` does when nothing is ever joined. A thread that was forked stays at
the level of its priority until it is dispatched from there, and leaves that level
for good only by blocking or ending. A caller of lower priority than the new thread
yields inside the call, and is dispatched again from its own level only: then no
level above holds anything, and so the new thread has blocked or ended.
-/
namespace UserThreads.Threads

open LinkedCells Queue Runs MultilevelQueue

namespace State

/-- The thread is on the processor. -/
def Active (s : State) (t : Tid) : Prop := t = s.currentRunningThread ∧ body s.stack ≠ []

/-- The level of the thread's priority. -/
def home (s : State) (t : Tid) : QRef := .ready (s.tcb t).priority

end State

/-- The thread ends, or blocks on a condition or a semaphore. -/
def Event.Stops (t : Tid) : Event → Prop
  | .ended u => u = t
  | .inserted q u => WaitQueues q ∧ u = t
  | _ => False

structure HomeOk (s : State) : Prop where
  known : ∀ t, ∀ e ∈ s.hist, e.Stops t → t ≤ s.gThreadID
  priority : ∀ t, s.Forked t → 0 ≤ (s.tcb t).priority
  waits : ∀ t, s.Forked t → t ∉ removedAt (s.home t) s.hist → Once s.contents (s.home t) t
  stays : ∀ t, s.Forked t → s.Active t ∨ Once s.contents (s.home t) t ∨ ∃ e ∈ s.hist, e.Stops t
  after : ∀ t pre post e, s.Forked t → e.Stops t → s.hist = post ++ e :: pre →
    .removed (s.home t) t ∈ pre

variable {g : Grain} {s s' s₀ u : State} {m : Move} {t : Tid} {p : ℤ} {e : Event}
  {es hist : List Event}

theorem body_vacant (h : s.Vacant) : body s.stack = [] := by
  obtain ⟨-, f, hf, hstack⟩ := h
  rw [hstack]
  cases f <;> first | rfl | cases hf

theorem Standing.vacant_of_once (hs : Standing s) {q : QRef}
    (h : Once s.contents q s.currentRunningThread) : s.Vacant := by
  by_contra hnot
  exact hs.current hnot q h.mem

/-- A thread stays at its level unless it is dispatched from there. -/
theorem Shift.once (h : Shift s s') (ht : TidsOk s) (hs : Standing s)
    (honce : Once s.contents (.ready p) t) :
    Once s'.contents (.ready p) t ∨
      s'.currentRunningThread = t ∧ body s.stack = [] ∧
        (∀ r, p < r → s'.contents (.ready r) = []) ∧
        (s'.stack = [.start] ∨ (s.tcb t).context = some s'.stack) ∧
        t ∈ removedAt (.ready p) s'.hist := by
  have hcur : ¬ s.Vacant → t ≠ s.currentRunningThread := by
    intro hvacant heq
    exact hvacant (hs.vacant_of_once (heq ▸ honce))
  cases h with
  | keep _ hcontents => exact Or.inl (hcontents ▸ honce)
  | suspend q _ _ hvacant _ hcontents =>
    rw [hcontents]
    exact Or.inl ((once_append_iff (hcur hvacant)).mpr honce)
  | fork r _ _ _ hcontents =>
    have hne : t ≠ s.gThreadID + 1 := by
      intro heq
      exact ht.absent_next (.ready p) (heq ▸ honce.mem)
    rw [hcontents]
    exact Or.inl ((once_append_iff hne).mpr honce)
  | wake q r u rest _ hq _ _ hhead hcontents =>
    have hne : t ≠ u := by
      intro heq
      exact honce.2 q (hq p) (heq ▸ hhead ▸ List.mem_cons_self ..)
    rw [hcontents]
    exact Or.inl ((once_append_iff hne).mpr ((once_take_iff hhead hne).mpr honce))
  | dispatch y u rest _ hbody hhead hhigh hcontents hcur' hstack hremoved =>
    by_cases hne : t = u
    · subst hne
      have hy : y = p := by
        by_contra hne
        exact honce.2 (.ready y) (by simpa using hne) (hhead ▸ List.mem_cons_self ..)
      subst hy
      refine Or.inr ⟨hcur', hbody, fun r hr => ?_, hstack, ?_⟩
      · rw [hcontents, Levels.set_of_ne (by simpa using ne_of_gt hr)]
        exact hhigh r hr
      · rw [hremoved, if_pos rfl]
        exact List.mem_append_right _ (List.mem_singleton_self t)
    · rw [hcontents]
      exact Or.inl ((once_take_iff hhead hne).mpr honce)

/-- Only the running thread ends or blocks. -/
theorem Trans.stops (h : Trans g s m s') : ∃ es, s'.hist = es ++ s.hist ∧
    ∀ t, ∀ e ∈ es, e.Stops t → t = s.currentRunningThread ∧ ¬ s.Vacant := by
  have hnone : ∀ {es : List Event}, (∀ e ∈ es, ∀ t, ¬ e.Stops t) →
      ∀ t, ∀ e ∈ es, e.Stops t → t = s.currentRunningThread ∧ ¬ s.Vacant :=
    fun hes t e he hstops => absurd hstops (hes e he t)
  cases h with
  | control m k b es h =>
    refine ⟨es, rfl, ?_⟩
    cases h with
    | finish hstack =>
      intro t e he hstops
      rw [List.mem_singleton.mp he] at hstops
      exact ⟨hstops.symm, not_vacant hstack rfl⟩
    | _ => exact hnone (by simp [Event.Stops])
  | suspend q f k next store h =>
    refine ⟨[_], rfl, fun t e he hstops => ?_⟩
    rw [List.mem_singleton.mp he] at hstops
    refine ⟨hstops.2.symm, ?_⟩
    cases h with
    | yield _ hstack | timer _ hstack | wait _ _ hstack | pass _ _ _ hstack =>
      exact not_vacant hstack rfl
  | exit val k hstack =>
    refine ⟨[_], rfl, fun t e he hstops => ?_⟩
    rw [List.mem_singleton.mp he] at hstops
    exact ⟨hstops.symm, not_vacant hstack rfl⟩
  | fork | sigWake | semWake =>
    exact ⟨[_, _], rfl, hnone (by simp [Event.Stops, WaitQueues])⟩
  | dispatchNew => exact ⟨[_, _], rfl, hnone (by simp [Event.Stops])⟩
  | unlock | lock | dispatchOld => exact ⟨[_], rfl, hnone (by simp [Event.Stops])⟩
  | insertWhole | inserted => exact ⟨[_], rfl, hnone (by simp [Event.Stops, WaitQueues])⟩
  | _ => exact ⟨[], rfl, hnone (by simp)⟩

/-- A thread of the state after a move was there before, or it is new and at its level. -/
theorem Shift.forked (h : Shift s s') (hids : TidsOk s) (ht : s'.Forked t) :
    s.Forked t ∨ 0 ≤ (s'.tcb t).priority ∧ Once s'.contents (s'.home t) t := by
  cases h with
  | fork p hp _ _ hcontents _ hid hpriority =>
    have hle : t ≤ s.gThreadID + 1 := hid ▸ ht.2
    rcases lt_or_eq_of_le hle with hlt | heq
    · exact Or.inl ⟨ht.1, Int.lt_add_one_iff.mp hlt⟩
    · right
      rw [State.home, heq, hpriority, hcontents]
      exact ⟨hp, hids.absent_next.append⟩
  | keep hid | suspend _ hid | wake _ _ _ _ hid | dispatch _ _ _ hid =>
    exact Or.inl ((forked_iff hid).mp ht)

theorem removedAt_mono {q : QRef} (ht : t ∈ removedAt q hist) : t ∈ removedAt q (es ++ hist) := by
  rw [removedAt_append]
  exact List.mem_append_left _ ht

/-- A thread that is dispatched is on the processor, or has ended. -/
theorem EndedOk.dispatched (he : EndedOk s)
    (hstack : s'.stack = [.start] ∨ (s.tcb t).context = some s'.stack) :
    body s'.stack ≠ [] ∨ s.Ended t := by
  rcases hstack with hstack | hcontext
  · rw [hstack]
    exact Or.inl (body_own_ne_nil rfl rfl)
  · by_cases hnil : body s'.stack = []
    · exact Or.inr (he.context t _ hcontext (by simp [hnil, phase]))
    · exact Or.inl hnil

theorem Trans.stays (h : Trans g s m s') (hu : Unjoined s) (hids : t ≤ s.gThreadID)
    (ht : s.Active t ∨ Once s.contents (s.home t) t ∨ ∃ e ∈ s.hist, e.Stops t) :
    s'.Active t ∨ Once s'.contents (s'.home t) t ∨ ∃ e ∈ s'.hist, e.Stops t := by
  have hended : ∀ {u}, s'.Ended u → ∃ e ∈ s'.hist, e.Stops u := fun hu => ⟨_, hu, rfl⟩
  have hhome : s'.home t = s.home t := by rw [State.home, State.home, h.priority hids]
  rcases ht with ⟨rfl, hbody⟩ | honce | ⟨e, he, hstops⟩
  · cases hu.shift h with
    | keep _ _ _ hcur _ hbody' =>
      rcases hbody' hbody with hnot | hend
      · exact Or.inl ⟨hcur.symm, hnot⟩
      · exact Or.inr (Or.inr (hended hend))
    | suspend q _ hq hvacant _ hcontents _ hhist =>
      rcases hq with hq | hq
      · refine Or.inr (Or.inl ?_)
        rw [hhome, hcontents, hq]
        exact (hu.standing.current hvacant).append
      · exact Or.inr (Or.inr ⟨.inserted q s.currentRunningThread,
          hhist ▸ List.mem_cons_self .., hq, rfl⟩)
    | fork _ _ _ hbody' _ hcur | wake _ _ _ _ _ _ _ hbody' _ _ hcur =>
      exact Or.inl ⟨hcur.symm, hbody'⟩
    | dispatch _ _ _ _ hnil => exact absurd hnil hbody
  · rcases (hu.shift h).once hu.tids hu.standing honce with hkept | ⟨hcur, -, -, hstack, -⟩
    · exact Or.inr (Or.inl (hhome ▸ hkept))
    · rcases hu.ended.dispatched hstack with hbody | hend
      · exact Or.inl ⟨hcur.symm, hbody⟩
      · exact Or.inr (Or.inr (hended (h.ended_mono hend)))
  · obtain ⟨es, hes⟩ := h.grows
    exact Or.inr (Or.inr ⟨e, hes ▸ List.mem_append_right _ he, hstops⟩)

/-- The threads that have ended or blocked had been dispatched before. -/
theorem HomeOk.dispatched (hh : HomeOk s) (hs : Standing s) (ht : s.Forked s.currentRunningThread)
    (hvacant : ¬ s.Vacant) :
    .removed (s.home s.currentRunningThread) s.currentRunningThread ∈ s.hist := by
  by_contra hnot
  have honce := hh.waits _ ht fun hmem => hnot (removed_mem hmem)
  exact hvacant (hs.vacant_of_once honce)

theorem Trans.homeOk (h : Trans g s m s') (hu : Unjoined s) (hh : HomeOk s) : HomeOk s' := by
  obtain ⟨new, hnew, hstops⟩ := h.stops
  have hhome : ∀ {t}, s.Forked t → s'.home t = s.home t := fun ht => by
    rw [State.home, State.home, h.priority ht.2]
  have hforked : ∀ {t}, s'.Forked t → s.Forked t ∨
      0 ≤ (s'.tcb t).priority ∧ Once s'.contents (s'.home t) t :=
    fun ht => (hu.shift h).forked hu.tids ht
  refine ⟨fun t e he ht => ?_, fun t ht => ?_, fun t ht hnot => ?_, fun t ht => ?_, ?_⟩
  · rw [hnew] at he
    refine le_trans ?_ h.gThreadID_le
    rcases List.mem_append.mp he with he | he
    · exact (hstops t e he ht).1 ▸ hu.tids.current
    · exact hh.known t e he ht
  · rcases hforked ht with hold | ⟨hp, -⟩
    · rw [h.priority hold.2]
      exact hh.priority t hold
    · exact hp
  · rcases hforked ht with hold | ⟨-, honce⟩
    · rw [hhome hold] at hnot ⊢
      have honce := hh.waits t hold fun hmem => hnot (hnew ▸ removedAt_mono hmem)
      rcases (hu.shift h).once hu.tids hu.standing honce with hkept | ⟨-, -, -, -, hmem⟩
      · exact hkept
      · exact absurd hmem hnot
    · exact honce
  · rcases hforked ht with hold | ⟨-, honce⟩
    · exact h.stays hu hold.2 (hh.stays t hold)
    · exact Or.inr (Or.inl honce)
  · intro t pre post e ht he hsplit
    rw [hnew] at hsplit
    have hknown : t ≤ s.gThreadID → s.Forked t := fun hle => ⟨ht.1, hle⟩
    rcases split_append hsplit with ⟨mid, -, hmid⟩ | ⟨mid, rfl, rfl⟩
    · have hold := hknown (hh.known t e (by simp [hmid]) he)
      rw [hhome hold]
      exact hh.after t pre mid e hold he hmid
    · obtain ⟨rfl, hvacant⟩ := hstops t e (by simp) he
      have hold := hknown hu.tids.current
      rw [hhome hold]
      exact List.mem_append_right _ (hh.dispatched hu.standing hold hvacant)

theorem Initial.homeOk (h : Initial s) : HomeOk s := by
  have hq : QueuesOk AllQueues s := h.queuesOk
  obtain ⟨f, v, p, hb⟩ := h.begun
  have hcontents := hb.contents hq
  have hp : 0 ≤ p := by
    by_contra hneg
    have hempty : levels s p = [] := hq.levels_empty fun hp => absurd hp hneg
    rw [levels, hcontents] at hempty
    simp [Levels.append] at hempty
  have hone : ∀ {t}, s.Forked t → t = 1 := by
    intro t ht
    have hle := ht.2
    rw [hb.gThreadID] at hle
    exact le_antisymm hle (Int.add_one_le_of_lt ht.1)
  have hprio : (s.tcb 1).priority = p := by rw [hb.tcb, Function.update_self]
  have honce : Once s.contents (s.home 1) 1 := by
    rw [State.home, hprio, hcontents]
    exact absent_empty.append
  have hnot : ∀ t, ∀ e ∈ s.hist, ¬ e.Stops t := by
    rw [hb.hist]
    simp [Event.Stops, WaitQueues]
  refine ⟨fun t e he ht => absurd ht (hnot t e he), fun t ht => ?_, fun t ht _ => ?_,
    fun t ht => ?_, fun t pre post e _ he hsplit => absurd he (hnot t e (by simp [hsplit]))⟩
  · rw [hone ht, hprio]
    exact hp
  · exact hone ht ▸ honce
  · exact Or.inr (Or.inl (hone ht ▸ honce))

/-- All that holds throughout a run without `t_join` calls, with the starts and ends
of threads. -/
structure Calm (s : State) : Prop where
  unjoined : Unjoined s
  home : HomeOk s
  lives : Lives s
  waits : QueuesOk WaitQueues s

theorem Calm.step (hc : Calm s) (hm : NoJoins m s) (hstep : step g m s = some s') : Calm s' := by
  have h := step_trans hstep
  obtain ⟨hl, hq⟩ := Lives.step ⟨hc.lives, hc.waits⟩ hstep
  exact ⟨h.unjoined hm hc.unjoined, h.homeOk hc.unjoined hc.home, hl, hq⟩

theorem calm_of_run (h₀ : Initial s₀) (hrun : Run (step g) NoJoins s₀ s) : Calm s :=
  hrun.invariant ⟨h₀.unjoined, h₀.homeOk, ⟨h₀.regular, h₀.startOk, h₀.exitsOk⟩, h₀.queuesOk⟩
    fun _ _ _ hc hm hstep => hc.step hm hstep

theorem priority_of_run {ok : Move → State → Prop} (hrun : Run (step g) ok s u)
    (ht : t ≤ s.gThreadID) :
    t ≤ u.gThreadID ∧ (u.tcb t).priority = (s.tcb t).priority := by
  refine hrun.invariant
    (I := fun u => t ≤ u.gThreadID ∧ (u.tcb t).priority = (s.tcb t).priority) ⟨ht, rfl⟩ ?_
  intro m a b ha _ hstep
  have h := step_trans hstep
  exact ⟨le_trans ha.1 h.gThreadID_le, (h.priority ha.1).trans ha.2⟩

section Call

/-- The thread has not returned to its own code. -/
def InCall (a : Tid) : Move → State → Prop := fun m s => NoJoins m s ∧ s.point a ≠ [.user]

instance (a : Tid) (m : Move) (s : State) : Decidable (InCall a m s) :=
  inferInstanceAs (Decidable (_ ∧ _))

/-- The program points of a `t_fork` that has made thread `n` and yielded. -/
def returning (n : Tid) : List (List Frame) :=
  [[.yielded, .forked n, .user], [.ret .void, .forked n, .user], [.forked n, .user],
    [.ret (.int n), .user]]

/-- Where a thread is in a `t_fork` that yields: about to yield, ready at its level, or
dispatched from there. -/
inductive Yields (a n : Tid) (s : State) : Prop
  | calls (hcur : s.currentRunningThread = a) (hblocked : s.blocked = true)
      (hstack : s.stack = [.enter .tYield, .forked n, .user]) : Yields a n s
  | ready (honce : Once s.contents (s.home a) a) (hpoint : s.point a ∈ returning n) : Yields a n s
  | runs (hcur : s.currentRunningThread = a) (hbody : body s.stack ∈ returning n)
      (hhigh : ∀ p, (s.tcb a).priority < p → s.contents (.ready p) = []) : Yields a n s

variable {a n : Tid} {f : Frame} {k : List Frame} {b : Bool}

theorem returning_top (h : body (f :: k) ∈ returning n) (hf : f.isTimer = false)
    (hf' : f.isSystem = false) :
    f = .yielded ∧ k = [.forked n, .user] ∨ f = .ret .void ∧ k = [.forked n, .user] ∨
      f = .forked n ∧ k = [.user] ∨ f = .ret (.int n) ∧ k = [.user] := by
  rw [body_own hf hf'] at h
  simpa [returning] using h

theorem Control.returning (h : Control s m k b es) (hbody : body s.stack ∈ returning n) :
    body k ∈ Threads.returning n ∨ k = [.user] := by
  cases h with
  | expire => exact Or.inl hbody
  | resumed _ hstack | handled _ hstack =>
    rw [hstack] at hbody
    exact Or.inl hbody
  | sitBottom _ hstack | idle _ hstack =>
    rw [hstack] at hbody
    simp [body, Frame.isTimer, Frame.isSystem, Threads.returning] at hbody
  | enable f k hstack hf =>
    rw [hstack] at hbody
    rcases hf with rfl | rfl | rfl <;>
      rcases returning_top hbody rfl rfl with ⟨h, hk⟩ | ⟨h, hk⟩ | ⟨h, hk⟩ | ⟨h, hk⟩ <;> cases h
    subst hk
    exact Or.inl (by simp [body, Frame.isTimer, Frame.isSystem, Threads.returning])
  | ret v k hstack =>
    rw [hstack] at hbody
    rcases returning_top hbody rfl rfl with ⟨h, hk⟩ | ⟨h, hk⟩ | ⟨h, hk⟩ | ⟨h, hk⟩ <;> cases h
    · subst hk
      exact Or.inl (by simp [body, Frame.isTimer, Frame.isSystem, Threads.returning])
    · exact Or.inr hk
  | forked tid k hstack =>
    rw [hstack] at hbody
    rcases returning_top hbody rfl rfl with ⟨h, hk⟩ | ⟨h, hk⟩ | ⟨h, hk⟩ | ⟨h, hk⟩ <;> cases h
    subst hk
    exact Or.inl (by simp [body, Frame.isTimer, Frame.isSystem, Threads.returning])
  | call _ hstack | finish hstack | joinDone _ _ hstack | waitLock _ _ _ hstack
  | waitNull _ _ hstack | sigNone _ _ _ _ hstack | sigEmpty _ _ _ _ _ hstack
  | acquire _ _ hstack | nullReturn _ _ hstack
  | joined _ _ hstack | waitedNull _ hstack | waitedLock _ _ hstack | spinBusy _ _ _ hstack
  | spinFree _ _ hstack | start _ hstack
  | wakeSkip _ _ _ hstack | wakeHit _ _ _ hstack | wakeEnd _ _ hstack
  | testHit _ _ _ hstack | testMiss _ _ _ hstack | take _ _ _ hstack =>
    rw [hstack] at hbody
    rcases returning_top hbody rfl rfl with ⟨h, -⟩ | ⟨h, -⟩ | ⟨h, -⟩ | ⟨h, -⟩ <;> cases h

/-- A thread past the yield in `t_fork` goes on to its return or is preempted. -/
theorem Trans.returning (h : Trans g s m s') (hbody : body s.stack ∈ returning n) :
    s'.currentRunningThread = s.currentRunningThread ∧
        (body s'.stack ∈ Threads.returning n ∨ s'.stack = [.user]) ∧
        (∀ r, insertedAt r s'.hist = insertedAt r s.hist ∧
          removedAt r s'.hist = removedAt r s.hist) ∨
      s'.Vacant ∧ ¬ s.Executes m ∧ s'.hist =
        .inserted (.ready s.current.priority) s.currentRunningThread :: s.hist := by
  have hnot : ∀ {f : Frame} {k : List Frame}, s.stack = f :: k → f.isTimer = false →
      f.isSystem = false → f ≠ .yielded → (∀ v, f ≠ .ret v) → (∀ t, f ≠ .forked t) → False := by
    intro f k hstack hf hf' hyielded hret hforked
    rw [hstack] at hbody
    rcases returning_top hbody hf hf' with ⟨h, -⟩ | ⟨h, -⟩ | ⟨h, -⟩ | ⟨h, -⟩
    · exact hyielded h
    · exact hret _ h
    · exact hforked _ h
    · exact hret _ h
  cases h with
  | control m k b es h =>
    exact Or.inl ⟨rfl, h.returning hbody, fun r => by cases h <;> exact ⟨rfl, rfl⟩⟩
  | suspend q f k next store h =>
    cases h with
    | timer k hstack =>
      refine Or.inr ⟨⟨rfl, _, rfl, rfl⟩, fun hexec => ?_, rfl⟩
      cases (hexec.top hstack).1
    | yield _ hstack | wait _ _ hstack | pass _ _ _ hstack =>
      exact (hnot hstack rfl rfl (by simp) (by simp) (by simp)).elim
  | dispatchNew _ _ _ _ hstack | dispatchOld _ _ _ _ _ hstack =>
    rw [hstack] at hbody
    simp [body, Frame.isTimer, Frame.isSystem, Threads.returning] at hbody
  | fork _ _ _ _ _ _ _ hstack | join _ _ _ hstack | unlock _ _ _ hstack | lock _ _ _ hstack
  | sigWake _ _ _ _ _ _ _ _ hstack | semWake _ _ _ _ _ _ hstack | semValue _ _ _ _ _ hstack
  | semFree _ _ _ hstack | newLock _ hstack | newCond _ _ hstack | newSem _ _ hstack
  | exit _ _ hstack | leave _ hstack | record _ _ hstack | insertWhole _ _ _ _ _ hstack
  | insertCall _ _ _ _ _ _ hstack | inserting _ _ _ _ _ _ _ _ _ hstack
  | inserted _ _ _ _ _ _ _ hstack | counted _ _ _ _ _ _ hstack =>
    exact (hnot hstack rfl rfl (by simp) (by simp) (by simp)).elim

theorem not_executes (h : body s.stack = []) : ¬ s.Executes m := by
  intro hexec
  obtain ⟨hown, hne⟩ := hexec.own
  exact hne (hown ▸ h)

/-- A thread that yields or is preempted is ready at its own level. -/
theorem Unjoined.requeued (hu : Unjoined s) (hu' : Unjoined s') (hvacant : ¬ s.Vacant)
    (hhome : s'.home s.currentRunningThread = .ready s.current.priority)
    (hhist : s'.hist = .inserted (.ready s.current.priority) s.currentRunningThread :: s.hist) :
    Once s'.contents (s'.home s.currentRunningThread) s.currentRunningThread := by
  have hcontents := contents_append (f := id) (i := .ready s.current.priority)
    (t := s.currentRunningThread) hu.queues hu'.queues (fun r => by simp [hhist, removedAt])
    fun r => by simp [hhist, insertedAt]
  rw [hhome, show s'.contents = _ from hcontents]
  exact (hu.standing.current hvacant).append

theorem returning_ne_nil (h : k ∈ returning n) : k ≠ [] := by
  rintro rfl
  simp [returning] at h

/-- A thread that has yielded in `t_fork` stays there unless it executes. -/
theorem Trans.point_returning (h : Trans g s m s') (hr : Regular s) (ho : StartOk s)
    (hpoint : s.point a ∈ Threads.returning n)
    (hidle : a = s.currentRunningThread → ¬ s.Executes m) : s'.point a = s.point a := by
  refine h.point_kept hr ho (ho.entered_user (returning_ne_nil hpoint) fun hmem => ?_) hidle
  revert hmem
  simp only [Threads.returning, List.mem_cons, List.not_mem_nil, or_false] at hpoint
  rcases hpoint with h | h | h | h <;> simp [h]

/-- The yield in `t_fork` and what comes after it, up to the return of the call. -/
theorem Yields.step (hy : Yields a n s) (hu : Unjoined s) (ho : StartOk s) (hm : NoJoins m s)
    (hstep : step g m s = some s') : Yields a n s' ∨ s'.point a = [.user] := by
  have h := step_trans hstep
  have hu' := h.unjoined hm hu
  have hprio : ∀ {t}, t ≤ s.gThreadID → (s'.tcb t).priority = (s.tcb t).priority :=
    fun ht => h.priority ht
  cases hy with
  | calls hcur hblocked hstack =>
    subst hcur
    have hhome := congrArg QRef.ready (hprio hu.tids.current)
    cases m with
    | expire => simp [Threads.step, hblocked] at hstep
    | call | finish => simp [Threads.step, hstack] at hstep
    | exec =>
      simp only [Threads.step, exec, hstack, enter, tYield, Option.bind_eq_bind,
        Option.bind_eq_some_iff, Option.some.injEq, setjmp_priority] at hstep
      obtain ⟨s₁, henq, rfl⟩ := hstep
      obtain ⟨-, store, -, rfl⟩ := enqueue_spec henq
      refine Or.inl (.ready (hu.requeued hu' (not_vacant hstack rfl) hhome rfl) ?_)
      rw [State.point_of_nil (by rfl)]
      simp [State.goto, State.setjmp, State.setTcb, State.disableTimer, body, Frame.isTimer,
        Frame.isSystem, Threads.returning]
  | ready honce hpoint =>
    have hhome := congrArg QRef.ready (hprio (hu.tids.booked.fits_of_mem honce.mem))
    have hidle : a = s.currentRunningThread → ¬ s.Executes m := fun heq =>
      not_executes (body_vacant (hu.standing.vacant_of_once (heq ▸ honce)))
    have hpoint' := h.point_returning hu.regular ho hpoint hidle
    rw [← hpoint'] at hpoint
    rcases (hu.shift h).once hu.tids hu.standing honce with hkept | ⟨hcur, hoff, hhigh, hstack, -⟩
    · refine Or.inl (.ready ?_ hpoint)
      rw [State.home, hhome]
      exact hkept
    · have hbody : body s'.stack ≠ [] := by
        rcases hstack with hstack | hcontext
        · rw [hstack]
          exact body_own_ne_nil rfl rfl
        · rw [hpoint', State.point_of_nil hoff, hcontext] at hpoint
          exact returning_ne_nil hpoint
      refine Or.inl (.runs hcur ?_ fun p hp => hhigh p (QRef.ready.inj hhome ▸ hp))
      rwa [← hcur, State.point_current hbody] at hpoint
  | runs hcur hbody hhigh =>
    subst hcur
    have hne := returning_ne_nil hbody
    have hhome := congrArg QRef.ready (hprio hu.tids.current)
    rcases h.returning hbody with ⟨hcur, hnext | huser, hhist⟩ | ⟨hvacant, hexec, hhist⟩
    · have hcontents : s'.contents = s.contents :=
        contents_same (f := id) hu.queues hu'.queues hhist
      refine Or.inl (.runs hcur hnext fun p hp => ?_)
      rw [hcontents]
      exact hhigh p (QRef.ready.inj hhome ▸ hp)
    · right
      rw [← hcur, State.point_current (by rw [huser]; exact body_own_ne_nil rfl rfl), huser]
      rfl
    · refine Or.inl (.ready (hu.requeued hu' (fun hv => hne (body_vacant hv)) hhome hhist) ?_)
      rw [← State.point_current hne] at hbody
      rwa [h.point_returning hu.regular ho hbody fun _ => hexec]

theorem not_mem_forks {f : ThreadFunc} {v : AnyPtr} (h : forks t hist = []) :
    .forked t f v p ∉ hist := by
  induction hist with
  | nil => exact List.not_mem_nil
  | cons e rest ih =>
    intro hmem
    rcases List.mem_cons.mp hmem with rfl | hmem
    · simp [forks] at h
    · refine ih ?_ hmem
      cases e with
      | forked u =>
        rw [forks] at h
        split_ifs at h
        exact h
      | _ => exact h

/-- What `t_fork` has done when it returns or yields. -/
theorem step_tFork {f : ThreadFunc} {v : AnyPtr} (hstack : s.stack = .enter (.tFork f v p) :: k)
    (hcur : s.currentRunningThread ≤ s.gThreadID) (hprio : s.current.priority ≠ -1)
    (hstep : step g .exec s = some s') :
    s'.currentRunningThread = s.currentRunningThread ∧ s'.gThreadID = s.gThreadID + 1 ∧
      (s'.tcb (s.gThreadID + 1)).priority = p ∧
      s'.hist = .inserted (.ready p) (s.gThreadID + 1) ::
        .forked (s.gThreadID + 1) f v p :: s.hist ∧
      (p ≤ s.current.priority → s'.stack = .ret (.int (s.gThreadID + 1)) :: k) ∧
      (s.current.priority < p → s'.blocked = true ∧
        s'.stack = .enter .tYield :: .forked (s.gThreadID + 1) :: k) := by
  have hne : s.currentRunningThread ≠ s.gThreadID + 1 :=
    ne_of_lt (lt_of_le_of_lt hcur (lt_next _))
  simp only [step, exec, hstack, enter, tFork, Option.bind_eq_bind, Option.bind_eq_some_iff]
    at hstep
  obtain ⟨s₁, henq, hstep⟩ := hstep
  obtain ⟨-, store, -, rfl⟩ := enqueue_spec henq
  have hcaller : (Function.update s.tcb (s.gThreadID + 1)
      { func := f, arg := v, priority := p, flag := 1 } s.currentRunningThread).priority =
        s.current.priority := by rw [Function.update_of_ne hne]; rfl
  have hmade : (Function.update s.tcb (s.gThreadID + 1)
      { func := f, arg := v, priority := p, flag := 1 } (s.gThreadID + 1)).priority = p := by
    rw [Function.update_self]
  split at hstep
  · rename_i hlow
    obtain ⟨-, hlow⟩ := hlow
    cases hstep
    refine ⟨rfl, rfl, hmade, rfl, fun hle => ?_, fun _ => ⟨rfl, rfl⟩⟩
    exact absurd (lt_of_eq_of_lt hcaller.symm hlow) (not_lt_of_ge hle)
  · rename_i hlow
    cases hstep
    refine ⟨rfl, rfl, hmade, rfl, fun _ => rfl, fun hlt => absurd ⟨?_, ?_⟩ hlow⟩
    · exact fun heq => hprio (hcaller.symm.trans heq)
    · exact lt_of_eq_of_lt hcaller hlt

/-- The running thread has been forked. -/
theorem Calm.forked_current (hc : Calm s) (hne : body s.stack ≠ []) :
    s.Forked s.currentRunningThread := by
  refine ⟨?_, hc.unjoined.tids.current⟩
  by_contra hle
  have hnil := (hc.lives.exits.unused _ (not_lt.mp hle)).2
  rw [State.point_current hne] at hnil
  exact hne hnil

theorem yields_of_run (hc : Calm s) (hy : Yields a n s) (hrun : Run (step g) (InCall a) s u) :
    Calm u ∧ (Yields a n u ∨ u.point a = [.user]) := by
  refine hrun.invariant (I := fun u => Calm u ∧ (Yields a n u ∨ u.point a = [.user]))
    ⟨hc, Or.inl hy⟩ ?_
  intro m x y hx hm hstep
  obtain ⟨hcalm, hyields⟩ := hx
  have hin := hyields.resolve_right hm.2
  exact ⟨hcalm.step hm.1 hstep, hin.step hcalm.unjoined hcalm.lives.starts hm.1 hstep⟩

/-- At its return the thread was dispatched from its own level. -/
theorem Yields.returned {w : Value} (hy : Yields a n u) (hs : Standing u)
    (hcur : u.currentRunningThread = a) (hstack : u.stack = [.ret w, .user]) :
    w = .int n ∧ ∀ p, (u.tcb a).priority < p → u.contents (.ready p) = [] := by
  cases hy with
  | calls _ _ hstack' =>
    rw [hstack] at hstack'
    cases hstack'
  | ready honce =>
    subst hcur
    exact absurd (hs.vacant_of_once honce) (not_vacant hstack rfl)
  | runs _ hbody hhigh =>
    rw [hstack] at hbody
    rcases returning_top hbody rfl rfl with ⟨h, hk⟩ | ⟨h, hk⟩ | ⟨h, hk⟩ | ⟨h, hk⟩ <;> cases h
    · cases hk
    · exact ⟨rfl, hhigh⟩

/-- A thread that is neither running nor at its level has been dispatched, and it has
ended or blocked since. -/
theorem HomeOk.left (hh : HomeOk s) (ht : s.Forked t) (hidle : ¬ s.Active t)
    (hempty : s.contents (s.home t) = []) :
    ∃ pre mid post e, s.hist = post ++ e :: (mid ++ .removed (s.home t) t :: pre) ∧ e.Stops t := by
  rcases hh.stays t ht with hactive | honce | ⟨e, he, hstops⟩
  · exact absurd hactive hidle
  · have hmem := honce.mem
    rw [hempty] at hmem
    cases hmem
  · obtain ⟨post, rest, hrest⟩ := List.append_of_mem he
    obtain ⟨mid, pre, hpre⟩ := List.append_of_mem (hh.after t rest post e ht hstops hrest)
    exact ⟨pre, mid, post, e, by rw [hrest, hpre], hstops⟩

/-- `t_fork` returns the tid of the new thread, which is not that of any other. It
dispatches nobody unless the new thread has the higher priority; then, when it
returns, no level above the caller's holds anything, and the new thread has been
dispatched and has ended or blocked since. -/
theorem fork_returns {f : ThreadFunc} {v : AnyPtr} (h₀ : Initial s₀)
    (hrun : Run (step g) NoJoins s₀ s) (hstack : s.stack = [.enter (.tFork f v p), .user])
    (hstep : step g .exec s = some s') :
    (∀ f' v' p', .forked (s.gThreadID + 1) f' v' p' ∉ s.hist) ∧
    s'.hist = .inserted (.ready p) (s.gThreadID + 1) ::
      .forked (s.gThreadID + 1) f v p :: s.hist ∧
    s'.contents (.ready p) = s.contents (.ready p) ++ [s.gThreadID + 1] ∧
    (p ≤ s.current.priority → s'.currentRunningThread = s.currentRunningThread ∧
      s'.stack = [.ret (.int (s.gThreadID + 1)), .user]) ∧
    (s.current.priority < p → ∀ u w, Run (step g) (InCall s.currentRunningThread) s' u →
      u.currentRunningThread = s.currentRunningThread → u.stack = [.ret w, .user] →
      w = .int (s.gThreadID + 1) ∧
      (∀ r, s.current.priority < r → u.contents (.ready r) = []) ∧
      ∃ pre mid post e, u.hist =
        post ++ e :: (mid ++ .removed (.ready p) (s.gThreadID + 1) :: pre) ∧
        e.Stops (s.gThreadID + 1)) := by
  have hc := calm_of_run h₀ hrun
  have hforked := hc.forked_current (by rw [hstack]; exact body_own_ne_nil rfl rfl)
  have hprio : s.current.priority ≠ -1 := by
    intro heq
    have hpos := hc.home.priority _ hforked
    rw [show (s.tcb s.currentRunningThread).priority = -1 from heq] at hpos
    exact absurd hpos (by decide)
  obtain ⟨hcur, hid, hmade, hhist, hlow, hhigh⟩ :=
    step_tFork hstack hc.unjoined.tids.current hprio hstep
  have hc' := hc.step (m := .exec) rfl hstep
  refine ⟨fun f' v' p' => not_mem_forks (hc.lives.starts.unmade _ (lt_next _)).2.1, hhist, ?_,
    fun hle => ⟨hcur, hlow hle⟩, fun hlt u w hcall hu hret => ?_⟩
  · exact hc.unjoined.queues.contents_inserted hc'.unjoined.queues trivial _
      (by simp [hhist, insertedAt]) (by simp [hhist, removedAt])
  obtain ⟨hblocked, hyield⟩ := hhigh hlt
  have hnew : s.currentRunningThread ≠ s.gThreadID + 1 :=
    ne_of_lt (lt_of_le_of_lt hforked.2 (lt_next _))
  obtain ⟨hcu, hyields | huser⟩ := yields_of_run hc' (.calls hcur hblocked hyield) hcall
  · obtain ⟨hw, habove⟩ := hyields.returned hcu.unjoined.standing hu hret
    have hcaller : (u.tcb s.currentRunningThread).priority = s.current.priority := by
      rw [(priority_of_run hcall (le_trans hforked.2 (step_trans hstep).gThreadID_le)).2]
      exact (step_trans hstep).priority hforked.2
    obtain ⟨hle, hthread⟩ := priority_of_run hcall (t := s.gThreadID + 1) (le_of_eq hid.symm)
    have hhome : u.home (s.gThreadID + 1) = .ready p := by rw [State.home, hthread, hmade]
    rw [hcaller] at habove
    refine ⟨hw, habove, ?_⟩
    rw [← hhome]
    refine hcu.home.left ⟨?_, hle⟩ (fun hactive => hnew (hu ▸ hactive.1.symm)) ?_
    · exact lt_of_lt_of_le hforked.1 (le_trans hforked.2 (le_of_lt (lt_next _)))
    · rw [hhome]
      exact habove p hlt
  · rw [← hu, State.point_current (by rw [hret]; exact body_own_ne_nil rfl rfl), hret] at huser
    cases huser

/-- A thread of priority 1 forks one of priority 2, which calls `t_exit`. -/
theorem fork_returns_higher :
    ∃ (s u : State) (pre mid post : List Event) (e : Event), s.current.priority = 1 ∧
      s.gThreadID = 1 ∧ u.stack = [.ret (.int 2), .user] ∧
      u.hist = post ++ e :: (mid ++ .removed (.ready 2) (s.gThreadID + 1) :: pre) ∧
      e.Stops (s.gThreadID + 1) := by
  obtain ⟨s₀, s, h₀, hrun, hgood⟩ := exists_run .statement NoJoins [] 1
    [.exec, .exec, .call (.tFork 0 .null 2)]
    (fun s => s.stack = [.enter (.tFork 0 .null 2), .user] && s.current.priority = 1 &&
      s.gThreadID = 1 && (step .statement .exec s).any fun s' =>
        (play (step .statement) (InCall s.currentRunningThread) [.exec, .exec, .exec,
          .call (.tExit 0), .exec, .exec, .exec, .exec, .exec] s').any fun u =>
            u.currentRunningThread = s.currentRunningThread && u.stack = [.ret (.int 2), .user])
    (by decide +kernel)
  simp only [Bool.and_eq_true, decide_eq_true_eq, Option.any_eq_true] at hgood
  obtain ⟨⟨⟨hstack, hprio⟩, hid⟩, s', hstep, u, hplay, hcur, hret⟩ := hgood
  obtain ⟨l, hpath, hl⟩ := path_of_play hplay
  obtain ⟨-, -, -, -, hhigh⟩ := fork_returns h₀ hrun hstack hstep
  obtain ⟨-, -, pre, mid, post, e, hhist, hstops⟩ :=
    hhigh (by rw [hprio]; decide) u _ (hpath.run hl) hcur hret
  exact ⟨s, u, pre, mid, post, e, hprio, hid, hret, hhist, hstops⟩

end Call

end UserThreads.Threads
