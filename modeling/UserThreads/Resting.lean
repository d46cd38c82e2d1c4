import UserThreads.Beats

/-!
The end of a run. A thread that was forked is on the processor, stands in a queue,
or has ended, and one that has ended blocks nowhere. So when `Scheduler` finds no
ready thread and returns to `t_start`, every thread has ended or stands in the queue
of one condition or semaphore; nothing moves again, and nobody will wake it. A thread
that waits at a semaphore when this is destroyed rests already, whatever the others do.
-/
namespace UserThreads.Threads

open LinkedCells Queue Runs MultilevelQueue

/-- No thread is lost, and nothing but waiting threads is left when `Scheduler` has
returned. -/
structure RestOk (s : State) : Prop where
  present : ∀ t, s.Forked t → s.Active t ∨ (∃ q, t ∈ s.contents q) ∨ s.Ended t
  after : ∀ t, s.Ended t → entries t s.hist ≠ [] ∧ phase (s.point t) ≠ .code
  apart : ∀ t q, s.Ended t → WaitQueues q → t ∉ s.contents q
  done : s.Mentions .done → s.stack = [.done] ∧ s.blocked = true ∧ ∀ p, s.contents (.ready p) = []

variable {g : Grain} {s s' s₀ : State} {m : Move} {t : Tid} {q : QRef} {f : Frame}
  {k : List Frame}

/-- A thread leaves its queue for another one or for the processor. -/
theorem Shift.present (h : Shift s s') (he : EndedOk s) (hmono : ∀ t, s.Ended t → s'.Ended t)
    (ht : s.Active t ∨ (∃ q, t ∈ s.contents q) ∨ s.Ended t) :
    s'.Active t ∨ (∃ q, t ∈ s'.contents q) ∨ s'.Ended t := by
  rcases ht with ⟨rfl, hbody⟩ | ⟨q, ht⟩ | hended
  · cases h with
    | keep _ _ _ hcur _ hbody' =>
      rcases hbody' hbody with hnot | hend
      · exact Or.inl ⟨hcur.symm, hnot⟩
      · exact Or.inr (Or.inr hend)
    | suspend q _ _ _ _ hcontents =>
      refine Or.inr (Or.inl ⟨q, ?_⟩)
      rw [hcontents, mem_append_iff]
      exact Or.inr ⟨rfl, rfl⟩
    | fork _ _ _ hbody' _ hcur | wake _ _ _ _ _ _ _ hbody' _ _ hcur =>
      exact Or.inl ⟨hcur.symm, hbody'⟩
    | dispatch _ _ _ _ hnil => exact absurd hnil hbody
  · cases h with
    | keep _ hcontents => exact Or.inr (Or.inl ⟨q, hcontents ▸ ht⟩)
    | suspend r _ _ _ _ hcontents | fork r _ _ _ hcontents =>
      refine Or.inr (Or.inl ⟨q, ?_⟩)
      rw [hcontents, mem_append_iff]
      exact Or.inl ht
    | wake r p u rest _ _ _ _ hhead hcontents =>
      by_cases hu : t = u
      · refine Or.inr (Or.inl ⟨.ready p, ?_⟩)
        rw [hcontents, mem_append_iff]
        exact Or.inr ⟨rfl, hu⟩
      · refine Or.inr (Or.inl ⟨q, ?_⟩)
        rw [hcontents, mem_append_iff, mem_take_iff hhead hu]
        exact Or.inl ht
    | dispatch y u rest _ _ hhead _ hcontents hcur hstack =>
      by_cases hu : t = u
      · rcases he.dispatched hstack with hbody | hend
        · exact Or.inl ⟨hu.trans hcur.symm, hbody⟩
        · exact Or.inr (Or.inr (hmono t (hu ▸ hend)))
      · refine Or.inr (Or.inl ⟨q, ?_⟩)
        rw [hcontents, mem_take_iff hhead hu]
        exact ht
  · exact Or.inr (Or.inr (hmono t hended))

/-- Whose end a move is. -/
theorem Trans.ends (h : Trans g s m s') (ht : s'.Ended t) :
    s.Ended t ∨ t = s.currentRunningThread ∧
      (s.stack = [.user] ∧ s'.stack = [.wake 0 false] ∧
          s'.currentRunningThread = s.currentRunningThread ∨
        ∃ val k, s.stack = .enter (.tExit val) :: k ∧ s'.stack = [.sched] ∧
          (s'.tcb t).context = none) := by
  have hsame : ∀ es : List Event, s'.hist = es ++ s.hist → .ended t ∉ es → s.Ended t := by
    intro es hes hnot
    rw [State.Ended, hes] at ht
    exact (List.mem_append.mp ht).resolve_left hnot
  cases h with
  | control m k b es h =>
    cases h with
    | finish hstack =>
      rcases List.mem_cons.mp ht with hnew | hold
      · exact Or.inr ⟨by simpa using hnew, Or.inl ⟨hstack, rfl, rfl⟩⟩
      · exact Or.inl hold
    | _ => exact Or.inl (hsame _ rfl (by simp))
  | exit val k hstack =>
    rcases List.mem_cons.mp ht with hnew | hold
    · obtain rfl : t = s.currentRunningThread := by simpa using hnew
      exact Or.inr ⟨rfl, Or.inr ⟨val, k, hstack, rfl, by simp⟩⟩
    · exact Or.inl hold
  | fork | sigWake | semWake | dispatchNew => exact Or.inl (hsame [_, _] rfl (by simp))
  | suspend | unlock | lock | insertWhole | inserted | dispatchOld =>
    exact Or.inl (hsame [_] rfl (by simp))
  | _ => exact Or.inl (hsame [] rfl (by simp))

theorem phase_epilogue (hf : f.phase = .epilogue) (hstack : s.stack = [f]) :
    phase (s.point s.currentRunningThread) = .epilogue := by
  have hf' : f.isTimer = false ∧ f.isSystem = false := by
    cases f <;> first | exact ⟨rfl, rfl⟩ | cases hf
  have hbody : body s.stack = [f] := by rw [hstack, body_own hf'.1 hf'.2]
  rw [State.point_current (by simp [hbody]), hbody]
  exact hf

/-- A thread in the epilogue stays there until nothing is left of it. -/
theorem Trans.epilogue (h : Trans g s m s') (hexec : s.Executes m)
    (hphase : phase s.stack = .epilogue) : phase (s'.point s.currentRunningThread) ≠ .code := by
  have hcode : ∀ {f : Frame} {k : List Frame}, s.stack = f :: k → f.phase ≠ .epilogue → False := by
    intro f k hstack hf
    rw [hstack] at hphase
    exact hf hphase
  have hnext : ∀ {f : Frame}, f.phase = .epilogue → s'.stack = [f] →
      s'.currentRunningThread = s.currentRunningThread →
      phase (s'.point s.currentRunningThread) ≠ .code := by
    intro f hf hstack hcur
    rw [← hcur, phase_epilogue hf hstack]
    decide
  cases h with
  | control m k b es h =>
    cases h with
    | wakeSkip | wakeHit | wakeEnd | testHit | testMiss | take => exact hnext rfl rfl rfl
    | expire => exact absurd rfl hexec.1
    | enable f k hstack hf =>
      refine (hcode hstack ?_).elim
      rcases hf with rfl | rfl | rfl <;> simp [Frame.phase]
    | call _ hstack | finish hstack | joinDone _ _ hstack | waitLock _ _ _ hstack
    | waitNull _ _ hstack | sigNone _ _ _ _ hstack | sigEmpty _ _ _ _ _ hstack
    | acquire _ _ hstack | nullReturn _ _ hstack | ret _ _ hstack | forked _ _ hstack
    | joined _ _ hstack | waitedNull _ hstack | waitedLock _ _ hstack | spinBusy _ _ _ hstack
    | spinFree _ _ hstack | resumed _ hstack | handled _ hstack | start _ hstack
    | sitBottom _ hstack | idle _ hstack =>
      exact (hcode hstack (by simp [Frame.phase])).elim
  | leave k hstack =>
    rw [point_dead rfl rfl rfl (by simp)]
    simp [phase]
  | record | insertWhole | insertCall | inserting | inserted | counted => exact hnext rfl rfl rfl
  | suspend q f k next store h =>
    cases h with
    | yield _ hstack | timer _ hstack | wait _ _ hstack | pass _ _ _ hstack =>
      exact (hcode hstack (by simp [Frame.phase])).elim
  | fork _ _ _ _ _ _ _ hstack | join _ _ _ hstack | unlock _ _ _ hstack | lock _ _ _ hstack
  | sigWake _ _ _ _ _ _ _ _ hstack | semWake _ _ _ _ _ _ hstack | semValue _ _ _ _ _ hstack
  | semFree _ _ _ hstack | newLock _ hstack | newCond _ _ hstack | newSem _ _ hstack
  | exit _ _ hstack | dispatchNew _ _ _ _ hstack | dispatchOld _ _ _ _ _ hstack =>
    exact (hcode hstack (by simp [Frame.phase])).elim

/-- A thread that has ended stays past its code. -/
theorem Trans.after (h : Trans g s m s') (hl : Lives s)
    (ho : ∀ t, s.Ended t → entries t s.hist ≠ [] ∧ phase (s.point t) ≠ .code)
    (ht : s'.Ended t) : entries t s'.hist ≠ [] ∧ phase (s'.point t) ≠ .code := by
  have hmono : entries t s.hist ≠ [] → entries t s'.hist ≠ [] := h.startMove.entries_mono
  rcases h.ends ht with hold | ⟨rfl, ⟨hstack, hstack', hcur⟩ | ⟨val, k, hstack, hstack', hnone⟩⟩
  · obtain ⟨hentered, hphase⟩ := ho t hold
    refine ⟨hmono hentered, ?_⟩
    by_cases hexec : t = s.currentRunningThread ∧ s.Executes m
    · obtain ⟨rfl, hexec⟩ := hexec
      refine h.epilogue hexec ?_
      rw [hexec.point] at hphase
      obtain ⟨-, f, k, hstack, hf, hf'⟩ := hexec
      rw [hstack] at hphase ⊢
      cases f <;> first | rfl | exact absurd rfl hphase | cases hf'
    · rwa [h.point_kept hl.regular hl.starts hentered fun heq hexec' => hexec ⟨heq, hexec'⟩]
  · refine ⟨hmono (hl.user hstack).1, ?_⟩
    rw [← hcur, phase_epilogue rfl hstack']
    decide
  · have hpoint : s.point s.currentRunningThread = .enter (.tExit val) :: k := by
      rw [State.point_current (by rw [hstack]; exact body_own_ne_nil rfl rfl), hstack]
      rfl
    have hw := hl.regular.shaped.stack
    rw [hstack] at hw
    obtain rfl := hw.below_call rfl rfl rfl
    refine ⟨hmono (hl.starts.entered_user (by simp [hpoint]) (by simp [hpoint])), ?_⟩
    rw [point_dead hstack' rfl rfl hnone]
    simp [phase]

/-- Who blocks has not ended. -/
theorem Suspends.not_ended {next : Frame} (h : Suspends s q f k next) (hq : WaitQueues q)
    (ho : ∀ t, s.Ended t → phase (s.point t) ≠ .code) : ¬ s.Ended s.currentRunningThread := by
  intro hended
  have hcode : ∀ {f : Frame} {k : List Frame}, s.stack = f :: k → f.isTimer = false →
      f.isSystem = false → f.phase = .code → False := by
    intro f k hstack hf hf' hphase
    refine ho _ hended ?_
    rw [State.point_current (by rw [hstack]; exact body_own_ne_nil hf hf'), hstack,
      body_own hf hf']
    exact hphase
  cases h with
  | yield | timer => exact hq _ rfl
  | wait c k hstack => exact hcode hstack rfl rfl rfl
  | pass i v k hstack => exact hcode hstack rfl rfl rfl

/-- How a thread comes to stand in a queue after a move. -/
inductive Queued (s s' : State) (t : Tid) (q : QRef) : Prop
  | old (ht : t ∈ s.contents q) : Queued s s' t q
  | moved (r : QRef) (p : ℤ) (ht : t ∈ s.contents r) (hq : q = .ready p) : Queued s s' t q
  | suspended (f : Frame) (k : List Frame) (next : Frame) (hcur : t = s.currentRunningThread)
      (h : Suspends s q f k next) (hhist : s'.hist = .inserted q t :: s.hist)
      (hcontext : (s'.tcb t).context = some (f :: k)) : Queued s s' t q
  | new (p : ℤ) (ht : t = s.gThreadID + 1) (hflag : (s'.tcb t).flag = 1) (hq : q = .ready p) :
      Queued s s' t q

theorem Trans.queued (h : Trans g s m s') (hu : Unjoined s) (ht : t ∈ s'.contents q) :
    Queued s s' t q := by
  cases hu.shift h with
  | keep _ hcontents => exact .old (hcontents ▸ ht)
  | suspend r _ _ _ _ hcontents _ hhist =>
    rw [hcontents, mem_append_iff] at ht
    rcases ht with hold | ⟨rfl, hcur⟩
    · exact .old hold
    · rw [← hcur] at hhist
      cases h with
      | suspend q' f k next store h =>
        simp only [List.cons.injEq, Event.inserted.injEq, and_true] at hhist
        exact .suspended f k next hcur (hhist.1 ▸ h) (by simp [hhist.1, hcur]) (by simp [hcur])
      | control m k b es h => cases h <;> simp at hhist
      | insertWhole _ _ _ _ _ hstack => cases hu.joinFree.top hstack
      | inserted _ _ _ _ _ _ _ hstack => cases hu.joinFree.top hstack
      | _ => simp at hhist
  | fork p _ _ _ hcontents _ hid =>
    rw [hcontents, mem_append_iff] at ht
    rcases ht with hold | ⟨hq, rfl⟩
    · exact .old hold
    · cases h with
      | fork => exact .new p rfl (by simp) hq
      | _ => exact absurd hid (ne_of_lt (lt_next _))
  | wake r p u rest _ _ _ _ hhead hcontents =>
    rw [hcontents, mem_append_iff] at ht
    rcases ht with hrest | ⟨hq, rfl⟩
    · exact .old (mem_of_taken hhead hrest)
    · exact .moved r p (hhead ▸ List.mem_cons_self ..) hq
  | dispatch y u rest _ _ hhead _ hcontents =>
    rw [hcontents] at ht
    exact .old (mem_of_taken hhead ht)

/-- `Scheduler` returns when it finds all levels empty. -/
theorem Trans.done (h : Trans g s m s') (hu : Unjoined s) (hnot : ¬ s.Mentions .done)
    (hstack' : s'.stack = [.done]) : s'.blocked = true ∧ ∀ p, s'.contents (.ready p) = [] := by
  have htail : ∀ {f : Frame}, s.stack = f :: [.done] → False :=
    fun hstack => hnot (Or.inl (by simp [hstack]))
  cases h with
  | control m k b es h =>
    cases h with
    | idle k hstack hscan =>
      refine ⟨rfl, fun p => hu.queues.levels_empty fun hp hlt => ?_⟩
      exact scan_eq_none.mp hscan p hp hlt
    | nullReturn _ _ hstack | ret _ _ hstack | waitedNull _ hstack | handled _ hstack =>
      exact (htail (hstack.trans (congrArg _ hstack'))).elim
    | _ => cases hstack'
  | suspend q f k next store h => cases h <;> cases hstack'
  | fork _ _ _ _ _ _ _ _ _ _ _ _ hk => rcases hk with ⟨-, rfl, -⟩ | ⟨-, rfl, -⟩ <;> cases hstack'
  | dispatchOld y t k k' store _ _ _ _ _ hcontext =>
    exact (hnot (Or.inr ⟨t, k', hcontext, by simp [show k' = [.done] from hstack']⟩)).elim
  | _ => cases hstack'

/-- Nothing moves when `Scheduler` has returned. -/
theorem stuck_of_done (hstack : s.stack = [.done]) (hblocked : s.blocked = true) :
    step g m s = none := by
  cases m with
  | expire => simp [step, hblocked]
  | call | finish | exec => simp [step, exec, hstack]

theorem Trans.restOk (h : Trans g s m s') (hc : Calm s) (hstep : step g m s = some s')
    (hr : RestOk s) : RestOk s' where
  present t ht := by
    have hshift := hc.unjoined.shift h
    rcases hshift.forked hc.unjoined.tids ht with hold | ⟨-, honce⟩
    · exact hshift.present hc.unjoined.ended (fun _ => h.ended_mono) (hr.present t hold)
    · exact Or.inr (Or.inl ⟨_, honce.mem⟩)
  after t ht := h.after hc.lives hr.after ht
  apart t q ht hq hmem := by
    cases h.queued hc.unjoined hmem with
    | old hold =>
      rcases h.ends ht with hended | ⟨rfl, ⟨hstack, -⟩ | ⟨val, k, hstack, -⟩⟩
      · exact hr.apart t q hended hq hold
      · exact hc.unjoined.standing.current (not_vacant hstack rfl) q hold
      · exact hc.unjoined.standing.current (not_vacant hstack rfl) q hold
    | moved _ p _ hready | new p _ _ hready => exact hq p hready
    | suspended f k next hcur hsus hhist =>
      subst hcur
      refine hsus.not_ended hq (fun t ht => (hr.after t ht).2) ?_
      rw [State.Ended, hhist] at ht
      exact (List.mem_cons.mp ht).resolve_left (by simp)
  done hdone := by
    by_cases hold : s.Mentions .done
    · obtain ⟨hstack, hblocked, -⟩ := hr.done hold
      rw [stuck_of_done hstack hblocked] at hstep
      cases hstep
    · rcases h.mentions rfl hdone with hmem | hstack'
      · exact absurd hmem hold
      · exact ⟨hstack', h.done hc.unjoined hold hstack'⟩

theorem Initial.restOk (h : Initial s) : RestOk s := by
  have hq : QueuesOk AllQueues s := h.queuesOk
  have hmentions : ∀ {f}, s.Mentions f → f = .sched := h.mentions
  obtain ⟨f, v, p, hb⟩ := h.begun
  have hnone : ∀ t, ¬ s.Ended t := by
    intro t
    simp [State.Ended, hb.hist]
  refine ⟨fun t ht => Or.inr (Or.inl ⟨.ready p, ?_⟩), fun t ht => absurd ht (hnone t),
    fun t q ht => absurd ht (hnone t), fun hdone => ?_⟩
  · obtain rfl : t = 1 := le_antisymm (hb.gThreadID ▸ ht.2) (Int.add_one_le_of_lt ht.1)
    rw [hb.contents hq, mem_append_iff]
    exact Or.inr ⟨rfl, rfl⟩
  · cases hmentions hdone

theorem restOk_of_run (h₀ : Initial s₀) (hrun : Run (step g) NoJoins s₀ s) :
    Calm s ∧ RestOk s :=
  hrun.invariant (I := fun s => Calm s ∧ RestOk s)
    ⟨calm_of_run h₀ (show Run (step g) NoJoins s₀ s₀ from .refl _), h₀.restOk⟩
    fun _ _ _ hI hm hstep => ⟨hI.1.step hm hstep, (step_trans hstep).restOk hI.1 hstep hI.2⟩

/-- A thread that is there when `Scheduler` has returned has ended and is nowhere, or it
has not ended and stands in the queue of one condition or semaphore, once. -/
theorem RestOk.stranded (hr : RestOk s) (hc : Calm s) (hdone : s.stack = [.done])
    (ht : s.Forked t) :
    s.Ended t ∧ Absent s.contents t ∨
      ¬ s.Ended t ∧ ∃ q, WaitQueues q ∧ Once s.contents q t := by
  obtain ⟨-, -, hempty⟩ := hr.done (Or.inl (by simp [hdone]))
  have hwait : ∀ {q}, t ∈ s.contents q → WaitQueues q := by
    rintro q hmem p rfl
    rw [hempty p] at hmem
    cases hmem
  by_cases hended : s.Ended t
  · exact Or.inl ⟨hended, fun q hmem => hr.apart t q hended (hwait hmem) hmem⟩
  · rcases hr.present t ht with ⟨-, hbody⟩ | ⟨q, hmem⟩ | hend
    · exact absurd (by rw [hdone]; rfl) hbody
    · exact Or.inr ⟨hended, q, hwait hmem, hc.unjoined.standing.of_mem hmem⟩
    · exact absurd hend hended

/-- `t_start` returns only when every thread has ended or waits at one condition or
semaphore with nobody left to wake it; then nothing moves again. -/
theorem exit_strands (h₀ : Initial s₀) (hrun : Run (step g) NoJoins s₀ s)
    (hdone : s.stack = [.done]) :
    (∀ m, step g m s = none) ∧ (∀ p, s.contents (.ready p) = []) ∧
    ∀ t, s.Forked t → s.Ended t ∧ Absent s.contents t ∨
      ¬ s.Ended t ∧ ∃ q, WaitQueues q ∧ Once s.contents q t := by
  obtain ⟨hc, hr⟩ := restOk_of_run h₀ hrun
  obtain ⟨-, hblocked, hempty⟩ := hr.done (Or.inl (by simp [hdone]))
  exact ⟨fun _ => stuck_of_done hdone hblocked, hempty, fun t => hr.stranded hc hdone⟩

/-- One thread waits at a semaphore that the other one leaves alone. -/
theorem exit_strands_waiter :
    ∃ s₀ s, Initial s₀ ∧ s.stack = [.done] ∧ (∀ m, step .statement m s = none) ∧
      ¬ s.Ended 1 ∧ ∃ q, WaitQueues q ∧ Once s.contents q 1 := by
  obtain ⟨s₀, s, h₀, hrun, hgood⟩ := exists_run .statement NoJoins [.sem 0] 1
    ([.exec, .exec, .call (.tFork 0 .null 1), .exec, .exec, .call (.semaphoreP 1), .exec, .exec,
      .exec, .finish] ++ List.replicate 54 .exec)
    (fun s => s.stack = [.done] && s.contents (.sem 1) = [1] && s.gThreadID = 2)
    (by decide +kernel)
  simp only [Bool.and_eq_true, decide_eq_true_eq] at hgood
  obtain ⟨⟨hdone, hwaits⟩, hid⟩ := hgood
  obtain ⟨hstuck, -, hstranded⟩ := exit_strands h₀ hrun hdone
  refine ⟨s₀, s, h₀, hdone, hstuck, (hstranded 1 ⟨by decide, by rw [hid]; decide⟩).resolve_left ?_⟩
  intro h
  exact h.2 (.sem 1) (by rw [hwaits]; exact List.mem_singleton_self _)

section Destroyed

/-! `Semaphore_destroy` frees the semaphore and leaves those who wait at it where they are. -/

variable {i : SemId}

theorem Calm.contents_kept (hc : Calm s) (hstep : Threads.step g m s = some s')
    (hid : i ≤ s.semaphoreID) (hnone : s.semaphores i = none) :
    i ≤ s'.semaphoreID ∧ s'.semaphores i = none ∧ s'.contents (.sem i) = s.contents (.sem i) := by
  have hq := hc.waits
  have hq' : QueuesOk WaitQueues s' := (Lives.step ⟨hc.lives, hq⟩ hstep).2
  have hno : ∀ {v : ℤ}, s.semaphores i = some v → False := by
    intro v hsem
    cases hnone.symm.trans hsem
  cases (step_trans hstep).semMove i with
  | keep es _ _ _ hid' hvalue hhist hins hrem =>
    exact ⟨hid'.mp hid, hvalue.trans hnone, (hq.sem_same es hq' hhist hins hrem).1⟩
  | create c _ _ _ hi => exact absurd hid (Nat.not_le_of_lt (hi ▸ Nat.lt_succ_self _))
  | pass v _ _ _ _ hsem | block t v _ _ _ _ hsem | hand p t v _ _ _ _ hsem
  | post v _ _ _ _ hsem | destroy v _ _ _ _ hsem => exact (hno hsem).elim

/-- Once a semaphore has been destroyed, nothing makes ready a thread that waits at it: the
thread never executes again, and it never ends. -/
theorem destroy_strands (h₀ : Initial s₀) (hrun : Run (step g) NoJoins s₀ s)
    (hnone : s.semaphores i = none) (ht : t ∈ s.contents (.sem i))
    (hrest : Run (step g) NoJoins s s') :
    s'.semaphores i = none ∧ s'.contents (.sem i) = s.contents (.sem i) ∧
      (∀ m, t = s'.currentRunningThread → ¬ s'.Executes m) ∧ ¬ s'.Ended t := by
  obtain ⟨hc, hr⟩ := restOk_of_run h₀ hrun
  have hid : i ≤ s.semaphoreID := by
    by_contra hlt
    have hempty := hc.waits.sem i (not_le.mp hlt)
    simp [State.contents, Store.contents, hempty] at ht
  have hinv := hrest.invariant
    (I := fun a => (Calm a ∧ RestOk a) ∧ i ≤ a.semaphoreID ∧ a.semaphores i = none ∧
      a.contents (.sem i) = s.contents (.sem i)) ⟨⟨hc, hr⟩, hid, hnone, rfl⟩ ?_
  · obtain ⟨⟨hc', hr'⟩, -, hnone', hcontents⟩ := hinv
    have ht' : t ∈ s'.contents (.sem i) := hcontents ▸ ht
    exact ⟨hnone', hcontents, fun m => hc'.idle_of_mem ht',
      fun hended => hr'.apart t _ hended mem_semQueue ht'⟩
  · intro m a b hI hm hstep
    obtain ⟨⟨hc, hr⟩, hid, hnone, hcontents⟩ := hI
    obtain ⟨hid', hnone', hsame⟩ := hc.contents_kept hstep hid hnone
    exact ⟨⟨hc.step hm hstep, (step_trans hstep).restOk hc hstep hr⟩, hid', hnone',
      hsame.trans hcontents⟩

/-- The first thread waits, the second one destroys the semaphore and returns. -/
theorem destroy_strands_waiter :
    ∃ s₀ s s', Initial s₀ ∧ Run (step .statement) NoJoins s₀ s ∧ s.contents (.sem 1) = [1] ∧
      Run (step .statement) NoJoins s s' ∧ s'.stack = [.done] ∧ ¬ s'.Ended 1 := by
  obtain ⟨s₀, s, h₀, hrun, hgood⟩ := exists_run .statement NoJoins [.sem 0] 1
    [.exec, .exec, .call (.tFork 0 .null 1), .exec, .exec, .call (.semaphoreP 1), .exec, .exec,
      .exec, .call (.semaphoreDestroy (some 1)), .exec]
    (fun s => s.semaphores 1 = none && s.contents (.sem 1) = [1] &&
      (play (step .statement) NoJoins ([.exec, .finish] ++ List.replicate 54 .exec) s).any
        fun s' => s'.stack = [.done]) (by decide +kernel)
  simp only [Bool.and_eq_true, decide_eq_true_eq] at hgood
  obtain ⟨⟨hnone, hwaits⟩, hlater⟩ := hgood
  obtain ⟨s', hplay, hdone⟩ := (Option.any_eq_true ..).mp hlater
  obtain ⟨l, hpath, hl⟩ := path_of_play hplay
  have ht : 1 ∈ s.contents (.sem 1) := by simp [hwaits]
  exact ⟨s₀, s, s', h₀, hrun, hwaits, hpath.run hl, of_decide_eq_true hdone,
    (destroy_strands h₀ hrun hnone ht (hpath.run hl)).2.2.2⟩

end Destroyed

end UserThreads.Threads
