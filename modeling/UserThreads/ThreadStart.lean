import UserThreads.ReadyQueues

/-!
How threads start. `incrementStack` stores the function of a new thread in the
global `userFunction`, unblocks SIGVTALRM and only then calls it. A thread is
started once, because its `flag` is cleared when it is dispatched, and its
argument cannot change before it has entered its body. But it enters the
function of whichever thread was started last.
-/
namespace UserThreads.Threads

open LinkedCells Queue Runs

/-- The functions and arguments that `t_fork` was given for the thread. -/
def forks (t : Tid) : List Event → List (ThreadFunc × AnyPtr)
  | [] => []
  | .forked u f v _ :: rest => if u = t then (f, v) :: forks t rest else forks t rest
  | _ :: rest => forks t rest

/-- The functions and arguments with which the thread's body was entered. -/
def entries (t : Tid) : List Event → List (ThreadFunc × AnyPtr)
  | [] => []
  | .entered u f v :: rest => if u = t then (f, v) :: entries t rest else entries t rest
  | _ :: rest => entries t rest

/-- The thread whose function was stored in `userFunction` last. -/
def lastStarted : List Event → Option Tid
  | [] => none
  | .started t :: _ => some t
  | _ :: rest => lastStarted rest

/-- Every thread has entered its body at most once, with the function and the
argument given to the only `t_fork` of its tid. -/
def EntersAsForked (s : State) : Prop :=
  ∀ t, entries t s.hist = [] ∨ ∃ x, entries t s.hist = [x] ∧ forks t s.hist = [x]

/-- When a thread calls `userFunction`, the thread that was started last had
been forked with the same function. -/
def StartsUndisturbed (m : Move) (s : State) : Prop :=
  m = .exec → ∀ k, s.stack = .start :: k → ∀ u, lastStarted s.hist = some u →
    ∀ x y, forks u s.hist = [x] → forks s.currentRunningThread s.hist = [y] → x.1 = y.1

/-- The thread has been forked and has not entered its body. -/
def State.Newborn (s : State) (t : Tid) : Prop := (s.tcb t).flag = 1 ∨ .start ∈ s.point t

/-- What a thread in a condition's queue is known to have done. -/
def HasEntered (hist : List Event) : QRef → Tid → Prop
  | .cond _ _, t => entries t hist ≠ []
  | _, _ => True

structure StartOk (s : State) : Prop where
  newborn : ∀ t, s.Newborn t →
    entries t s.hist = [] ∧ forks t s.hist = [((s.tcb t).func, (s.tcb t).arg)]
  flag : ∀ t, .start ∈ s.point t → (s.tcb t).flag ≠ 1 ∧ lastStarted s.hist ≠ none
  unmade : ∀ t, s.gThreadID < t → entries t s.hist = [] ∧ forks t s.hist = [] ∧ ¬ s.Newborn t
  entered : ∀ t, s.point t ≠ [] → .start ∈ s.point t ∨ entries t s.hist ≠ []
  last : ∀ t, lastStarted s.hist = some t → ∃ v, forks t s.hist = [(s.userFunction, v)]
  booked : Booked (fun _ => False) (HasEntered s.hist) s

variable {g : Grain} {s s' : State} {m : Move} {t u : Tid} {hist : List Event}

/-- What a move does to the start of threads. -/
inductive StartMove (s s' : State) : Move → Prop
  | none (m : Move) (hid : s'.gThreadID = s.gThreadID) (huser : s'.userFunction = s.userFunction)
      (hforks : ∀ t, forks t s'.hist = forks t s.hist)
      (hentries : ∀ t, entries t s'.hist = entries t s.hist)
      (hlast : lastStarted s'.hist = lastStarted s.hist)
      (hflag : ∀ t, (s'.tcb t).flag = 1 → (s.tcb t).flag = 1)
      (hfunc : ∀ t, (s'.tcb t).func = (s.tcb t).func)
      (harg : ∀ t, (s'.tcb t).arg = (s.tcb t).arg ∨
        ∃ c i store, s.store.qRemove (.cond c i) = some (some t, store))
      (hstack : m ≠ .expire → ∀ k, s.stack ≠ .start :: k) : StartMove s s' m
  | fork (f : ThreadFunc) (v : AnyPtr) (p : ℤ) (k : List Frame)
      (hstack : s.stack = .enter (.tFork f v p) :: k) (hid : s'.gThreadID = s.gThreadID + 1)
      (huser : s'.userFunction = s.userFunction)
      (htcb : s'.tcb = Function.update s.tcb (s.gThreadID + 1)
        { func := f, arg := v, priority := p, flag := 1 })
      (hhist : s'.hist = .inserted (.ready p) (s.gThreadID + 1) ::
        .forked (s.gThreadID + 1) f v p :: s.hist) : StartMove s s' .exec
  | start (t : Tid) (y : ℤ) (k : List Frame) (hstack : s.stack = .sched :: k)
      (hflag : (s.tcb t).flag = 1) (hid : s'.gThreadID = s.gThreadID)
      (huser : s'.userFunction = (s.tcb t).func)
      (htcb : s'.tcb = Function.update s.tcb t { s.tcb t with flag := 0 })
      (hhist : s'.hist = .started t :: .removed (.ready y) t :: s.hist) : StartMove s s' .exec
  | enter (k : List Frame) (hstack : s.stack = .start :: k) (hstack' : s'.stack = [.user])
      (hid : s'.gThreadID = s.gThreadID) (huser : s'.userFunction = s.userFunction)
      (htcb : s'.tcb = s.tcb)
      (hhist : s'.hist =
        .entered s.currentRunningThread s.userFunction s.current.arg :: s.hist) :
      StartMove s s' .exec

theorem Trans.startMove (h : Trans g s m s') : StartMove s s' m := by
  have hother : ∀ {f : Frame} {k : List Frame} {m : Move}, s.stack = f :: k → f ≠ .start →
      m ≠ .expire → ∀ k, s.stack ≠ .start :: k := by
    intro f k m hstack hf _ k' hstack'
    rw [hstack] at hstack'
    cases hstack'
    exact hf rfl
  have hupdate : ∀ (u : Tid) (c : Tcb), (c.flag = 1 → (s.tcb u).flag = 1) →
      c.func = (s.tcb u).func → c.arg = (s.tcb u).arg →
      (∀ t, (Function.update s.tcb u c t).flag = 1 → (s.tcb t).flag = 1) ∧
      (∀ t, (Function.update s.tcb u c t).func = (s.tcb t).func) ∧
      ∀ t, (Function.update s.tcb u c t).arg = (s.tcb t).arg := by
    intro u c hflag hfunc harg
    refine ⟨fun t => ?_, fun t => ?_, fun t => ?_⟩ <;> by_cases ht : t = u <;>
      simp_all [Function.update_of_ne]
  cases h with
  | fork f v p k k' b store hstack => exact .fork f v p k hstack rfl rfl rfl rfl
  | dispatchNew y t k store hstack _ _ _ hflag => exact .start t y k hstack hflag rfl rfl rfl rfl
  | control m k b es h =>
    cases h with
    | start k hstack => exact .enter k hstack rfl rfl rfl rfl rfl
    | expire =>
      exact .none _ rfl rfl (fun _ => rfl) (fun _ => rfl) rfl (fun _ => id) (fun _ => rfl)
        (fun _ => Or.inl rfl) fun h => absurd rfl h
    | enable f k hstack hf =>
      exact .none _ rfl rfl (fun _ => rfl) (fun _ => rfl) rfl (fun _ => id) (fun _ => rfl)
        (fun _ => Or.inl rfl) (hother hstack (by rcases hf with rfl | rfl | rfl <;> simp))
    | call _ hstack | finish hstack | joinDone _ _ hstack | waitLock _ _ _ hstack
    | waitNull _ _ hstack | sigNone _ _ _ _ hstack | sigEmpty _ _ _ _ _ hstack
    | acquire _ _ hstack | nullReturn _ _ hstack | ret _ _ hstack | forked _ _ hstack
    | joined _ _ hstack | waitedNull _ hstack | waitedLock _ _ hstack | spinBusy _ _ _ hstack
    | spinFree _ _ hstack | resumed _ hstack | handled _ hstack | wakeSkip _ _ _ hstack
    | wakeHit _ _ _ hstack | wakeEnd _ _ hstack | testHit _ _ _ hstack | testMiss _ _ _ hstack
    | take _ _ _ hstack | sitBottom _ hstack | idle _ hstack =>
      exact .none _ rfl rfl (fun _ => rfl) (fun _ => rfl) rfl (fun _ => id) (fun _ => rfl)
        (fun _ => Or.inl rfl) (hother hstack (by simp))
  | suspend q f k next store h =>
    obtain ⟨hflag, hfunc, harg⟩ := hupdate s.currentRunningThread
      { s.current with context := some (f :: k) } id rfl rfl
    refine .none _ rfl rfl (fun _ => rfl) (fun _ => rfl) rfl hflag hfunc
      (fun t => Or.inl (harg t)) ?_
    cases h with
    | yield _ hstack | timer _ hstack | wait _ _ hstack | pass _ _ _ hstack =>
      exact hother hstack (by simp)
  | join tid k slot hstack =>
    obtain ⟨hflag, hfunc, harg⟩ := hupdate s.currentRunningThread
      { s.current with context := some (.joined tid :: k), flag := 0, waitingForTid := tid }
      (by simp) rfl rfl
    exact .none _ rfl rfl (fun _ => rfl) (fun _ => rfl) rfl hflag hfunc
      (fun t => Or.inl (harg t)) (hother hstack (by simp))
  | exit _ _ hstack | leave _ hstack =>
    obtain ⟨hflag, hfunc, harg⟩ := hupdate s.currentRunningThread
      { s.current with context := none } id rfl rfl
    exact .none _ rfl rfl (fun _ => rfl) (fun _ => rfl) rfl hflag hfunc
      (fun t => Or.inl (harg t)) (hother hstack (by simp))
  | sigWake c val lock k i t store store' hstack _ _ hrem =>
    refine .none _ rfl rfl (fun _ => rfl) (fun _ => rfl) rfl (fun u => ?_) (fun u => ?_)
      (fun u => ?_) (hother hstack (by simp)) <;> by_cases hu : u = t
    · simp [hu]
    · simp [Function.update_of_ne hu]
    · simp [hu]
    · simp [Function.update_of_ne hu]
    · exact Or.inr ⟨c, i, store, hu ▸ hrem⟩
    · simp [Function.update_of_ne hu]
  | unlock _ _ _ hstack | lock _ _ _ hstack | semWake _ _ _ _ _ _ hstack
  | semValue _ _ _ _ _ hstack | semFree _ _ _ hstack | newLock _ hstack | newCond _ _ hstack
  | newSem _ _ hstack | record _ _ hstack | insertWhole _ _ _ _ _ hstack
  | insertCall _ _ _ _ _ _ hstack | inserting _ _ _ _ _ _ _ _ _ hstack
  | inserted _ _ _ _ _ _ _ hstack | counted _ _ _ _ _ _ hstack
  | dispatchOld _ _ _ _ _ hstack =>
    exact .none _ rfl rfl (fun _ => rfl) (fun _ => rfl) rfl (fun _ => id) (fun _ => rfl)
      (fun _ => Or.inl rfl) (hother hstack (by simp))

/-- A thread comes to the call of `userFunction` only by being started. -/
theorem Trans.start_mem (h : Trans g s m s') (hr : Regular s) (hstart : .start ∈ s'.point t) :
    .start ∈ s.point t ∧ ¬ (t = s.currentRunningThread ∧ s.Executes m) ∨ s.Starts s' t := by
  by_cases hexec : t = s.currentRunningThread ∧ s.Executes m
  · obtain ⟨rfl, hexec⟩ := hexec
    exfalso
    cases h.arrives hr hexec hstart with
    | below _ hf =>
      obtain ⟨-, f, k, hstack, htimer, -⟩ := hexec
      have hw := hr.shaped.stack
      rw [hstack] at hw hf
      rcases hw.below_mem htimer hf with hf | ⟨_, hf⟩ | ⟨_, hf⟩ <;> cases hf
    | other _ _ _ hnot => exact hnot rfl
  · rcases h.point hr.parked t with hsame | hexec' | ⟨hstarts, -⟩ | ⟨-, hnil⟩
    · exact Or.inl ⟨hsame ▸ hstart, hexec⟩
    · exact absurd hexec' hexec
    · exact Or.inr hstarts
    · rw [hnil] at hstart
      cases hstart

theorem StartMove.entries_mono (h : StartMove s s' m) (ht : entries t s.hist ≠ []) :
    entries t s'.hist ≠ [] := by
  cases h with
  | none _ _ _ _ hentries => rwa [hentries]
  | fork _ _ _ _ _ _ _ _ hhist | start _ _ _ _ _ _ _ _ hhist => simpa [hhist, entries] using ht
  | enter _ _ _ _ _ _ hhist =>
    rw [hhist, entries]
    split_ifs
    · exact List.cons_ne_nil _ _
    · exact ht

/-- The running thread at `.start` executes nothing else before it enters. -/
theorem State.Executes.start_top (h : s.Executes m) (hs : Shaped s) (hmem : .start ∈ s.stack) :
    ∃ k, s.stack = .start :: k := by
  obtain ⟨-, f, k, hstack, hf, -⟩ := h
  have hw := hs.stack
  rw [hstack] at hw hmem
  rcases List.mem_cons.mp hmem with rfl | hmem
  · exact ⟨k, hstack⟩
  · rcases hw.below_mem hf hmem with h | ⟨_, h⟩ | ⟨_, h⟩ <;> cases h

theorem Trans.newborn (h : Trans g s m s') (hr : Regular s) (ho : StartOk s)
    (ht : s'.Newborn t) :
    entries t s'.hist = [] ∧ forks t s'.hist = [((s'.tcb t).func, (s'.tcb t).arg)] := by
  have hstart : .start ∈ s'.point t → s.Newborn t := fun hmem =>
    (h.start_mem hr hmem).elim (fun h => Or.inr h.1) fun h => Or.inl h.flag
  cases h.startMove with
  | none m _ _ hforks hentries _ hflag hfunc harg _ =>
    have hnew : s.Newborn t := ht.elim (fun h => Or.inl (hflag t h)) hstart
    obtain ⟨hnone, hfork⟩ := ho.newborn t hnew
    refine ⟨(hentries t).trans hnone, ?_⟩
    rcases harg t with harg | ⟨c, i, store, hrem⟩
    · rw [hforks, hfork, hfunc, harg]
    · obtain ⟨owner, hl, -⟩ := ho.booked
      exact absurd hnone (hl.removed hrem)
  | fork f v p k hstack _ _ htcb hhist =>
    by_cases hid : t = s.gThreadID + 1
    · obtain ⟨hnone, hfork, -⟩ := ho.unmade t (hid ▸ Int.lt_add_one_of_le le_rfl)
      subst hid
      simp [hhist, entries, forks, hnone, hfork, htcb]
    · have hnew : s.Newborn t := by
        refine ht.elim (fun h => Or.inl ?_) hstart
        rwa [htcb, Function.update_of_ne hid] at h
      simpa [hhist, entries, forks, htcb, Function.update_of_ne hid, Ne.symm hid]
        using ho.newborn t hnew
  | start u y k hstack hflag _ _ htcb hhist =>
    by_cases hu : t = u
    · subst hu
      simpa [hhist, entries, forks, htcb] using ho.newborn t (Or.inl hflag)
    · have hnew : s.Newborn t := by
        refine ht.elim (fun h => Or.inl ?_) hstart
        rwa [htcb, Function.update_of_ne hu] at h
      simpa [hhist, entries, forks, htcb, Function.update_of_ne hu] using ho.newborn t hnew
  | enter k hstack hstack' _ _ htcb hhist =>
    have hexec : s.Executes .exec := ⟨by simp, _, k, hstack, rfl, rfl⟩
    have hpoint : .start ∈ s.point s.currentRunningThread := by simp [hexec.point, hstack]
    have hcur : t ≠ s.currentRunningThread := by
      intro heq
      subst heq
      rcases ht with hflag | hmem
      · exact (ho.flag _ hpoint).1 (htcb ▸ hflag)
      · rcases h.start_mem hr hmem with ⟨-, hnot⟩ | hstarts
        · exact hnot ⟨rfl, hexec⟩
        · exact (ho.flag _ hpoint).1 hstarts.flag
    have hnew : s.Newborn t := ht.elim (fun h => Or.inl (htcb ▸ h)) hstart
    simpa [hhist, entries, forks, htcb, Ne.symm hcur] using ho.newborn t hnew

theorem Trans.startOk {good : QRef → Prop} (h : Trans g s m s') (hr : Regular s)
    (hq : QueuesOk good s) (ho : StartOk s) : StartOk s' := by
  have hmove := h.startMove
  have hexec : ∀ {k : List Frame}, s.stack = .start :: k →
      .start ∈ s.point s.currentRunningThread := by
    intro k hstack
    have hexec : s.Executes .exec := ⟨by simp, _, k, hstack, rfl, rfl⟩
    simp [hexec.point, hstack]
  refine ⟨fun t ht => h.newborn hr ho ht, ?_, ?_, ?_, ?_, ?_⟩
  · intro t hmem
    rcases h.start_mem hr hmem with ⟨hold, -⟩ | hstarts
    · obtain ⟨hflag, hlast⟩ := ho.flag t hold
      cases hmove with
      | none _ _ _ _ _ hsame hflag' => exact ⟨fun h => hflag (hflag' t h), hsame ▸ hlast⟩
      | fork f v p k _ _ _ htcb hhist =>
        have hid : t ≠ s.gThreadID + 1 := by
          intro heq
          subst heq
          exact (ho.unmade _ (Int.lt_add_one_of_le le_rfl)).2.2 (Or.inr hold)
        simpa [htcb, Function.update_of_ne hid, hhist, lastStarted] using ⟨hflag, hlast⟩
      | start u y k _ _ _ _ htcb hhist =>
        refine ⟨?_, by simp [hhist, lastStarted]⟩
        by_cases hu : t = u
        · simp [htcb, hu]
        · simpa [htcb, Function.update_of_ne hu] using hflag
      | enter k _ _ _ _ htcb hhist =>
        simpa [htcb, hhist, lastStarted] using ⟨hflag, hlast⟩
    · refine ⟨by simp [hstarts.cleared], ?_⟩
      obtain ⟨rest, hrest⟩ : ∃ rest, s'.hist = .started t :: rest := by
        have hhead := hstarts.hist
        cases hhist : s'.hist with
        | nil => simp [hhist] at hhead
        | cons e rest => exact ⟨rest, by simpa [hhist] using hhead⟩
      simp [hrest, lastStarted]
  · intro t ht
    have hstart : .start ∈ s'.point t → s.Newborn t := fun hmem =>
      (h.start_mem hr hmem).elim (fun h => Or.inr h.1) fun h => Or.inl h.flag
    have hkeep : s.gThreadID < t → ((s'.tcb t).flag = 1 → (s.tcb t).flag = 1) → ¬ s'.Newborn t :=
      fun hid hflag hnew => (ho.unmade t hid).2.2 (hnew.elim (fun h => Or.inl (hflag h)) hstart)
    cases hmove with
    | none _ hid _ hforks hentries _ hflag =>
      rw [hid] at ht
      exact ⟨(hentries t).trans (ho.unmade t ht).1, (hforks t).trans (ho.unmade t ht).2.1,
        hkeep ht (hflag t)⟩
    | fork f v p k _ hid _ htcb hhist =>
      rw [hid] at ht
      have hlt : s.gThreadID < t := lt_of_le_of_lt (Int.le_add_one le_rfl) ht
      have hne : t ≠ s.gThreadID + 1 := ne_of_gt ht
      refine ⟨?_, ?_, hkeep hlt fun h => ?_⟩
      · simpa [hhist, entries] using (ho.unmade t hlt).1
      · simpa [hhist, forks, Ne.symm hne] using (ho.unmade t hlt).2.1
      · rwa [htcb, Function.update_of_ne hne] at h
    | start u y k _ hflag hid _ htcb hhist =>
      rw [hid] at ht
      have hne : t ≠ u := by
        intro heq
        subst heq
        exact (ho.unmade t ht).2.2 (Or.inl hflag)
      refine ⟨?_, ?_, hkeep ht fun h => ?_⟩
      · simpa [hhist, entries] using (ho.unmade t ht).1
      · simpa [hhist, forks] using (ho.unmade t ht).2.1
      · rwa [htcb, Function.update_of_ne hne] at h
    | enter k hstack _ hid _ htcb hhist =>
      rw [hid] at ht
      have hne : s.currentRunningThread ≠ t := by
        intro heq
        subst heq
        exact (ho.unmade _ ht).2.2 (Or.inr (hexec hstack))
      refine ⟨?_, ?_, hkeep ht fun h => ?_⟩
      · simpa [hhist, entries, hne] using (ho.unmade t ht).1
      · simpa [hhist, forks] using (ho.unmade t ht).2.1
      · rwa [htcb] at h
  · intro t hpoint
    rcases h.point hr.parked t with hsame | ⟨rfl, hrun⟩ | ⟨-, hstart⟩ | ⟨-, hnil⟩
    · rw [hsame] at hpoint ⊢
      exact (ho.entered t hpoint).imp_right hmove.entries_mono
    · right
      rcases ho.entered s.currentRunningThread (by rw [hrun.point]; exact hrun.own.2)
        with hmem | hentered
      · rw [hrun.point] at hmem
        obtain ⟨k, hstack⟩ := hrun.start_top hr.shaped hmem
        cases hmove with
        | none _ _ _ _ _ _ _ _ _ hnot => exact absurd hstack (hnot hrun.1 k)
        | fork _ _ _ _ hstack' | start _ _ _ hstack' =>
          rw [hstack] at hstack'
          cases hstack'
        | enter _ _ _ _ _ _ hhist => simp [hhist, entries]
      · exact hmove.entries_mono hentered
    · exact Or.inl (by simp [hstart])
    · exact absurd hnil hpoint
  · intro t ht
    cases hmove with
    | none _ _ huser hforks _ hlast =>
      rw [hforks, huser]
      exact ho.last t (hlast ▸ ht)
    | fork f v p k _ _ huser _ hhist =>
      have hlast : lastStarted s.hist = some t := by simpa [hhist, lastStarted] using ht
      obtain ⟨w, hw⟩ := ho.last t hlast
      have hne : s.gThreadID + 1 ≠ t := by
        intro heq
        subst heq
        rw [(ho.unmade _ (Int.lt_add_one_of_le le_rfl)).2.1] at hw
        cases hw
      exact ⟨w, by simpa [hhist, forks, hne, huser] using hw⟩
    | start u y k _ hflag _ huser _ hhist =>
      obtain rfl : u = t := by simpa [hhist, lastStarted] using ht
      exact ⟨(s.tcb u).arg, by simpa [hhist, forks, huser] using (ho.newborn u (Or.inl hflag)).2⟩
    | enter k _ _ _ huser _ hhist =>
      obtain ⟨w, hw⟩ := ho.last t (by simpa [hhist, lastStarted] using ht)
      exact ⟨w, by simpa [hhist, forks, huser] using hw⟩
  · refine h.booked ?_ (fun p => hq.cond _ p le_rfl) (hq.sem _ (Nat.lt_succ_self _))
      (steady_of_not_ready fun _ => id) ?_
    · obtain ⟨owner, hl, hins⟩ := ho.booked
      refine ⟨owner, hl.mono_fits fun q t hfit => ?_, hins⟩
      cases q with
      | cond c p => exact hmove.entries_mono hfit
      | _ => trivial
    · intro q t henq
      cases henq with
      | suspend q f k next hsus =>
        cases hsus with
        | wait c k hstack =>
          have hrun : s.Executes .exec := ⟨by simp, _, k, hstack, rfl, rfl⟩
          refine hmove.entries_mono ?_
          rcases ho.entered s.currentRunningThread (by rw [hrun.point]; exact hrun.own.2)
            with hmem | hentered
          · rw [hrun.point] at hmem
            obtain ⟨k', hstack'⟩ := hrun.start_top hr.shaped hmem
            rw [hstack] at hstack'
            cases hstack'
          · exact hentered
        | _ => trivial
      | _ => trivial

theorem Initial.startOk (h : Initial s) : StartOk s := by
  have hbooked : Booked (fun _ => False) (HasEntered s.hist) s := h.booked fun _ _ => trivial
  have hpoint := h.point
  obtain ⟨f, v, p, hb⟩ := h.begun
  have hnew : ∀ t, s.Newborn t → t = 1 := by
    intro t h'
    rcases h' with hflag | hmem
    · by_contra ht
      simp [hb.tcb, Function.update_of_ne ht] at hflag
    · simp [hpoint] at hmem
  refine ⟨?_, ?_, ?_, ?_, ?_, hbooked⟩
  · intro t ht
    simp [hnew t ht, hb.hist, entries, forks, hb.tcb]
  · intro t hmem
    simp [hpoint] at hmem
  · intro t ht
    rw [hb.gThreadID] at ht
    refine ⟨?_, ?_, fun h => ne_of_gt ht (hnew t h)⟩
    · simp [hb.hist, entries]
    · simp [hb.hist, forks, ne_of_lt ht]
  · intro t hne
    exact absurd (hpoint t) hne
  · intro t ht
    simp [hb.hist, lastStarted] at ht

/-- A thread that is about to enter does so as it was forked exactly when the
thread started last had been forked with its function. -/
private theorem enters_iff {k : List Frame} (ho : StartOk s) (hstack : s.stack = .start :: k) :
    [(s.userFunction, s.current.arg)] = forks s.currentRunningThread s.hist ↔
      StartsUndisturbed .exec s := by
  have hexec : s.Executes .exec := ⟨by simp, _, k, hstack, rfl, rfl⟩
  have hmem : .start ∈ s.point s.currentRunningThread := by simp [hexec.point, hstack]
  have hforks : forks s.currentRunningThread s.hist = [(s.current.func, s.current.arg)] :=
    (ho.newborn _ (Or.inr hmem)).2
  obtain ⟨u, hlast⟩ := Option.ne_none_iff_exists'.mp (ho.flag _ hmem).2
  obtain ⟨w, hw⟩ := ho.last u hlast
  rw [hforks]
  constructor
  · intro hsame _ k' _ u' hu' x y hx hy
    rw [hlast] at hu'
    cases hu'
    rw [hw] at hx
    rw [hforks] at hy
    cases hx
    cases hy
    simpa using hsame
  · intro hundisturbed
    have hsame := hundisturbed rfl k hstack u hlast _ _ hw hforks
    simpa using hsame

/-- A move keeps the entries right exactly when the thread that enters was not
disturbed. -/
theorem enters_step_iff (h : Trans g s m s') (ho : StartOk s) (hs : EntersAsForked s) :
    EntersAsForked s' ↔ StartsUndisturbed m s := by
  have hother : (∀ t, entries t s'.hist = entries t s.hist) →
      (∀ t, entries t s.hist ≠ [] → forks t s'.hist = forks t s.hist) → EntersAsForked s' := by
    intro hentries hforks t
    rw [hentries]
    refine (hs t).imp_right ?_
    intro h'
    obtain ⟨x, hx, hfork⟩ := h'
    exact ⟨x, hx, (hforks t (by simp [hx])).trans hfork⟩
  cases h.startMove with
  | none m _ _ hforks hentries _ _ _ _ hstack =>
    refine iff_of_true (hother hentries fun t _ => hforks t) fun hm k hk => ?_
    exact absurd hk (hstack (by simp [hm]) k)
  | fork f v p k hstack _ _ _ hhist =>
    refine iff_of_true (hother (fun t => by simp [hhist, entries]) fun t ht => ?_) fun _ k hk => ?_
    · have hne : s.gThreadID + 1 ≠ t := by
        intro heq
        subst heq
        exact ht (ho.unmade _ (Int.lt_add_one_of_le le_rfl)).1
      simp [hhist, forks, hne]
    · rw [hstack] at hk
      cases hk
  | start u y k hstack _ _ _ _ hhist =>
    refine iff_of_true (hother (fun t => by simp [hhist, entries]) fun t _ => ?_) fun _ k hk => ?_
    · simp [hhist, forks]
    · rw [hstack] at hk
      cases hk
  | enter k hstack _ _ _ _ hhist =>
    rw [← enters_iff ho hstack]
    have hexec : s.Executes .exec := ⟨by simp, _, k, hstack, rfl, rfl⟩
    have hmem : .start ∈ s.point s.currentRunningThread := by simp [hexec.point, hstack]
    have hnone := (ho.newborn _ (Or.inr hmem)).1
    have hforks : ∀ t, forks t s'.hist = forks t s.hist := fun t => by simp [hhist, forks]
    have hentries : entries s.currentRunningThread s'.hist =
        [(s.userFunction, s.current.arg)] := by
      simp [hhist, entries, hnone]
    constructor
    · intro hs'
      rcases hs' s.currentRunningThread with hnil | ⟨x, hx, hfork⟩
      · simp [hentries] at hnil
      · rw [← hforks, hfork, ← hx, hentries]
    · intro hsame t
      by_cases ht : s.currentRunningThread = t
      · subst ht
        exact Or.inr ⟨_, hentries, by rw [hforks, ← hsame]⟩
      · simpa [hhist, entries, forks, ht] using hs t

variable {s₀ : State} {path : List (Move × State)}

/-- Every thread enters its body at most once and as it was forked, exactly when
every thread that calls `userFunction` was started last or shares its function
with the one that was. -/
theorem enters_as_forked_iff (h₀ : Initial s₀) (hpath : Path (step .statement) s₀ path s) :
    ((∀ x ∈ path, EntersAsForked x.2) ∧ EntersAsForked s) ↔
      ∀ x ∈ path, StartsUndisturbed x.1 x.2 := by
  have hany : ∀ x ∈ path, AnyTiming x.1 x.2 := fun _ _ => trivial
  refine hpath.forall_iff (P := EntersAsForked) (C := StartsUndisturbed)
    (I := fun a => Regular a ∧ QueuesOk WaitQueues a ∧ StartOk a) hany
    ⟨h₀.regular, h₀.queuesOk, h₀.startOk⟩ ?_ ?_
  · obtain ⟨f, v, p, hb⟩ := h₀.begun
    intro t
    simp [hb.hist, entries]
  · intro m a b hI hs _ hstep
    obtain ⟨hr, hq, ho⟩ := hI
    have htrans := step_trans hstep
    exact ⟨enters_step_iff htrans ho hs, fun _ => ⟨htrans.regular hr,
      htrans.queuesOk hq steady_waitQueues, htrans.startOk hr hq ho⟩⟩

/-- Of two threads that are forked with functions 1 and 2, the first is preempted
just before it calls `userFunction`, the second starts and yields, and the first
goes on. -/
def preemptedBeforeCall : List Move :=
  [.exec, .exec, .call (.tFork 1 .null 126), .exec, .exec, .call (.tFork 2 .null 126), .exec,
   .exec, .call (.tExit 0), .exec, .exec, .expire, .exec, .exec, .exec, .exec,
   .call .tYield, .exec, .exec, .exec, .exec, .exec]

/-- The first thread enters the function of the second. -/
theorem enters_other_function :
    ∃ s₀ path s, Initial s₀ ∧ Path (step .statement) s₀ path s ∧ ¬ EntersAsForked s := by
  obtain ⟨s₀, path, s, h₀, hpath, -, hgood⟩ := exists_path .statement AnyTiming [] 127
    preemptedBeforeCall
    (fun s => entries 2 s.hist = [(2, .null)] && forks 2 s.hist = [(1, .null)])
    (by decide +kernel)
  simp only [Bool.and_eq_true, decide_eq_true_eq] at hgood
  refine ⟨s₀, path, s, h₀, hpath, fun hs => ?_⟩
  rcases hs 2 with hnil | ⟨x, hx, hfork⟩
  · rw [hgood.1] at hnil
    cases hnil
  · rw [hgood.1] at hx
    rw [hgood.2] at hfork
    rw [← hx] at hfork
    cases hfork

/-- Two threads that start one after the other. -/
theorem enters_as_forked_iff_fork :
    ∃ (s₀ : State) (path : List (Move × State)) (s : State), Initial s₀ ∧
      entries 2 s.hist = [(1, .null)] ∧
      (((∀ x ∈ path, EntersAsForked x.2) ∧ EntersAsForked s) ↔
        ∀ x ∈ path, StartsUndisturbed x.1 x.2) := by
  obtain ⟨s₀, path, s, h₀, hpath, -, hgood⟩ := exists_path .statement AnyTiming [] 127
    [.exec, .exec, .call (.tFork 1 .null 126), .exec, .exec, .call (.tExit 0), .exec, .exec, .exec]
    (fun s => entries 2 s.hist = [(1, .null)]) (by decide +kernel)
  exact ⟨s₀, path, s, h₀, by simpa using hgood, enters_as_forked_iff h₀ hpath⟩

end UserThreads.Threads
