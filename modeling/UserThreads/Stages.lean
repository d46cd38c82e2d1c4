import UserThreads.Dues

/-!
A world as the program sees it, when the program uses no locks and no semaphores.
A stage has the thread on the processor, the queues, and the place of every thread
with the call that is due of it. `Beat` says what one step can do to the stage: the
scheduler chooses among the highest threads that are ready, a signal wakes the first
of the highest waiters, and nothing else changes hands.
-/
namespace UserThreads.Threads

open LinkedCells Queue Runs MultilevelQueue

variable {G L : Type}

/-- The thread on the processor. -/
def State.on (s : State) : Option Tid :=
  if body s.stack = [] then none else some s.currentRunningThread

/-- What the program sees of a world. `finished` are the threads that have ended. -/
@[ext] structure Stage (G L : Type) where
  shared : G
  on : Option Tid
  queues : Levels QRef Tid
  pos : Tid → Option Op × L
  priority : Tid → ℤ
  last : Tid
  finished : Set Tid

def World.stage (w : World G L) : Stage G L where
  shared := w.shared
  on := w.sys.on
  queues := w.sys.contents
  pos t := (w.sys.due t, w.threads t)
  priority t := (w.sys.tcb t).priority
  last := w.sys.gThreadID
  finished := {t | w.sys.Ended t}

/-- One step of the stage. The thread `t` is the one on the processor, or the one that
comes to it. -/
inductive Beat (P : Program G L) (σ : Stage G L) : Stage G L → Prop
  | act (t : Tid) (place next : L) (shared : G) (hon : σ.on = some t)
      (hpos : σ.pos t = (none, place)) (hcode : P.code σ.shared place = .act shared next) :
      Beat P σ { σ with shared := shared, pos := Function.update σ.pos t (none, next) }
  | call (t : Tid) (op : Op) (place next : L) (hon : σ.on = some t)
      (hpos : σ.pos t = (none, place)) (hcode : P.code σ.shared place = .call op next) :
      Beat P σ { σ with pos := Function.update σ.pos t (some op, next) }
  | made (t : Tid) (lock : Option LockId) (place : L) (hon : σ.on = some t)
      (hpos : σ.pos t = (some (.condCreate lock true), place)) :
      Beat P σ { σ with pos := Function.update σ.pos t (none, place) }
  | fork (t : Tid) (f : ThreadFunc) (v : AnyPtr) (p : ℤ) (place : L) (hon : σ.on = some t)
      (hpos : σ.pos t = (some (.tFork f v p), place)) (ht : t ≤ σ.last) :
      Beat P σ { σ with
        queues := Levels.append σ.queues (.ready p) (σ.last + 1)
        pos := Function.update (Function.update σ.pos t (none, place)) (σ.last + 1)
          (none, P.body f v)
        priority := Function.update σ.priority (σ.last + 1) p
        last := σ.last + 1 }
  | yield (t : Tid) (place : L) (hon : σ.on = some t)
      (hpos : σ.pos t = (some .tYield, place)) :
      Beat P σ { σ with
        on := none
        queues := Levels.append σ.queues (.ready (σ.priority t)) t
        pos := Function.update σ.pos t (none, place) }
  | preempt (t : Tid) (hon : σ.on = some t) :
      Beat P σ { σ with
        on := none, queues := Levels.append σ.queues (.ready (σ.priority t)) t }
  /-- the timer takes the processor from a thread that has ended -/
  | linger (t : Tid) (hon : σ.on = none) (hover : t ∈ σ.finished) (ht : t ≤ σ.last) :
      Beat P σ { σ with queues := Levels.append σ.queues (.ready (σ.priority t)) t }
  | sleep (t : Tid) (c : CondId) (place : L) (hon : σ.on = some t)
      (hpos : σ.pos t = (some (.tWait c none), place)) :
      Beat P σ { σ with
        on := none
        queues := Levels.append σ.queues (.cond c (σ.priority t)) t
        pos := Function.update σ.pos t (none, place) }
  | sigNone (t : Tid) (c : CondId) (v : AnyPtr) (place : L) (hon : σ.on = some t)
      (hpos : σ.pos t = (some (.tSig c v none), place)) (hempty : ∀ p, σ.queues (.cond c p) = []) :
      Beat P σ { σ with pos := Function.update σ.pos t (none, place) }
  | sigWake (t : Tid) (c : CondId) (v : AnyPtr) (place : L) (p : ℤ) (u : Tid) (rest : List Tid)
      (hon : σ.on = some t) (hpos : σ.pos t = (some (.tSig c v none), place))
      (hhead : σ.queues (.cond c p) = u :: rest)
      (hhigh : ∀ q, p < q → σ.queues (.cond c q) = []) :
      Beat P σ { σ with
        queues := Levels.append (Levels.set σ.queues (.cond c p) rest)
          (.ready (σ.priority u)) u
        pos := Function.update σ.pos t (none, place) }
  | finish (t : Tid) (place : L) (hon : σ.on = some t) (hpos : σ.pos t = (none, place))
      (hcode : P.code σ.shared place = .ret) : Beat P σ { σ with finished := insert t σ.finished }
  | exit (t : Tid) (v : ℤ) (place : L) (hon : σ.on = some t)
      (hpos : σ.pos t = (some (.tExit v), place)) :
      Beat P σ { σ with
        on := none, pos := Function.update σ.pos t (none, place), finished := insert t σ.finished }
  | leave (t : Tid) (hon : σ.on = some t) (hover : t ∈ σ.finished) : Beat P σ { σ with on := none }
  /-- what is chosen may be a thread that has ended, and then nobody is on -/
  | dispatch (t : Tid) (p : ℤ) (rest : List Tid) (on : Option Tid) (hon : σ.on = none)
      (hhead : σ.queues (.ready p) = t :: rest)
      (hhigh : ∀ q, p < q → σ.queues (.ready q) = [])
      (hnext : on = some t ∨ on = none ∧ t ∈ σ.finished) :
      Beat P σ { σ with on := on, queues := Levels.set σ.queues (.ready p) rest }

section Staged

variable {P : Program G L} {g : Grain} {w w' : World G L} {tick : Tick} {t : Tid} {s : State}
  {m : Move} {op : Op} {f : Frame} {k : List Frame} {c : CondId}

/-- What holds of every world of a program without locks and semaphores. -/
structure Staged (P : Program G L) (w : World G L) : Prop where
  hosted : Hosted P w
  waited : Waited w.sys
  waits : ∀ t c, w.sys.point t = [.waiting c, .user] →
    ∃ shared place, P.code shared place = .call (.tWait c none) (w.threads t)
  unlocked : ∀ t f c, w.sys.point t ≠ [f, .waiting c, .user]

theorem Trans.waited {s s' : State} (h : Trans g s m s') (hw : Waited s) : Waited s' :=
  ⟨h.queuesOk hw.queues steady_waitQueues, h.tidsOk hw.queues hw.tids,
    h.fitsWaiter hw.queues hw.tids hw.fits, h.inTable hw.queues hw.table, h.condsOk hw.conds⟩

/-- The routine at the top of the stack is one that the program has called, or the `t_yield` of
`t_fork`. -/
theorem Staged.enter_cases (h : Staged P w) (hP : P.Bare) (hstack : w.sys.stack = .enter op :: k) :
    k = [.user] ∧ op.bare = true ∧ w.sys.due w.sys.currentRunningThread = some op ∨
      op = .tYield ∧ ∃ tid, k = [.forked tid, .user] := by
  have hs := h.hosted.calm.lives.regular.shaped.stack
  rw [hstack] at hs
  rcases hs.below_inner rfl with rfl | ⟨tid, hin, rfl⟩ | ⟨c, -, rfl⟩
  · obtain ⟨shared, place, hcode⟩ := h.hosted.called w.sys.currentRunningThread _
      (calling_enter hstack)
    exact Or.inl ⟨rfl, hP _ _ _ _ hcode, due_top hstack rfl rfl⟩
  · refine Or.inr ⟨?_, tid, rfl⟩
    cases op <;> first | rfl | cases hin
  · refine absurd ?_ (h.unlocked w.sys.currentRunningThread (.enter op) c)
    rw [State.point_current (by rw [hstack]; exact body_own_ne_nil rfl rfl), hstack]
    rfl

/-- The code has the call that is due. -/
theorem Staged.due_code (h : Staged P w) (hdue : w.sys.due t = some op) :
    ∃ shared place, P.code shared place = .call op (w.threads t) := by
  unfold State.due dueAt at hdue
  split at hdue
  · rename_i op' hpoint
    cases hdue
    exact h.hosted.called t op (calling_iff.mpr hpoint)
  · rename_i c hpoint
    cases hdue
    exact h.waits t c hpoint
  · cases hdue

/-- A thread whose point a step leaves as it is, and is not nothing, keeps its place. -/
theorem Goes.threads_idle (h : Goes g P w tick w') (hh : Hosted P w)
    (hpoint : w.sys.point t ≠ [.user]) (hne : w.sys.point t ≠ [])
    (hidle : w'.sys.point t = w.sys.point t)
    (hstart : w.sys.point t ≠ [.start]) : w'.threads t = w.threads t := by
  have huser : w.sys.stack = [.user] → t ≠ w.sys.currentRunningThread := by
    rintro hstack rfl
    refine hpoint ?_
    rw [State.point_current (by rw [hstack]; exact body_own_ne_nil rfl rfl), hstack]
    rfl
  cases h with
  | expire | ret => rfl
  | act shared next hstack | call op next s hstack => exact Function.update_of_ne (huser hstack) ..
  | exec s _ hstep =>
    have hlaunch := P.launches w.sys w.threads
    generalize P.launch w.sys w.threads = threads at hlaunch ⊢
    cases hlaunch with
    | fork f v p k hstack =>
      refine Function.update_of_ne ?_ ..
      rintro rfl
      obtain ⟨hentries, -, hnew⟩ := hh.calm.lives.starts.unmade _ (lt_next w.sys.gThreadID)
      rcases hh.calm.lives.starts.entered _ hne with hmem | hentered
      · exact hnew (Or.inr hmem)
      · exact hentered hentries
    | start k hstack =>
      refine Function.update_of_ne ?_ ..
      rintro rfl
      have hs := hh.calm.lives.regular.shaped.stack
      rw [hstack] at hs
      have hk : k = [] := by cases hs <;> first | rfl | contradiction
      subst hk
      refine hstart ?_
      rw [State.point_current (by rw [hstack]; exact body_own_ne_nil rfl rfl), hstack]
      rfl
    | same => rfl

/-- Who is inside a `t_wait` after a step has called it, or was there before. -/
theorem Staged.step_waits (h : Staged P w) (hstep : w.step g P tick = some w')
    (hpoint : w'.sys.point t = [.waiting c, .user]) :
    ∃ shared place, P.code shared place = .call (.tWait c none) (w'.threads t) := by
  have hgoes := World.goes hstep
  have hold : w'.sys.point t = w.sys.point t →
      ∃ shared place, P.code shared place = .call (.tWait c none) (w'.threads t) := by
    intro hsame
    have hbefore : w.sys.point t = [.waiting c, .user] := hsame.symm.trans hpoint
    rw [hgoes.threads_idle h.hosted (by simp [hbefore]) (by simp [hbefore]) hsame
      (by simp [hbefore])]
    exact h.waits t c hbefore
  rcases hgoes.sys with hsys | ⟨m, hmove, hthreads⟩
  · exact hold (by rw [hsys])
  · have htrans := step_trans hmove
    by_cases hexec : t = w.sys.currentRunningThread ∧ w.sys.Executes m
    · obtain ⟨rfl, hexec⟩ := hexec
      by_cases hm : m = .exec
      · subst hm
        have hunlocked := h.unlocked w.sys.currentRunningThread
        rw [hexec.point] at hunlocked
        have hpasses := htrans.passes h.hosted.calm.lives.regular.shaped.stack hexec
        rw [hpoint] at hpasses
        cases hpasses with
        | replace _ _ _ _ hf => exact absurd rfl (hf c)
        | pop f _ hk => exact absurd hk (hunlocked f c)
        | wait _ _ hk =>
          have hsame : P.launch w.sys w.threads = w.threads := by simp [Program.launch, hk]
          rw [hthreads rfl, hsame]
          exact h.due_code (due_top hk rfl rfl)
      · obtain ⟨f, rest, hnew, hf, -⟩ := point_begun hexec hm hmove
        rw [hpoint] at hnew
        cases hnew
        exact absurd rfl (hf c)
    · rcases htrans.point_idle h.hosted.calm.lives fun hcur hrun => hexec ⟨hcur, hrun⟩ with
        hsame | ⟨-, hnew | hnew⟩
      · exact hold hsame
      · rw [hnew] at hpoint
        cases hpoint
      · rw [hnew] at hpoint
        cases hpoint

theorem Staged.step_unlocked (h : Staged P w) (hP : P.Bare) (hstep : w.step g P tick = some w')
    (t : Tid) (f : Frame) (c : CondId) : w'.sys.point t ≠ [f, .waiting c, .user] := by
  intro hpoint
  rcases (World.goes hstep).sys with hsys | ⟨m, hmove, hthreads⟩
  · exact h.unlocked t f c (hsys ▸ hpoint)
  · have htrans := step_trans hmove
    by_cases hexec : t = w.sys.currentRunningThread ∧ w.sys.Executes m
    · obtain ⟨rfl, hexec⟩ := hexec
      by_cases hm : m = .exec
      · subst hm
        have hs := h.hosted.calm.lives.regular.shaped.stack
        have hunlocked := h.unlocked w.sys.currentRunningThread
        rw [hexec.point] at hunlocked
        have hpasses := htrans.passes hs hexec
        rw [hpoint] at hpasses
        cases hpasses with
        | replace _ f' _ hk => exact hunlocked f' c hk
        | pop f' _ hk =>
          rw [hk] at hs
          cases hs with
          | timer hf =>
            obtain ⟨-, f'', k', hstack, hf', -⟩ := hexec
            rw [hk] at hstack
            cases hstack
            rw [hf] at hf'
            cases hf'
        | unlock _ l _ hk =>
          rcases h.enter_cases hP hk with ⟨-, hbare, -⟩ | ⟨hop, -⟩
          · cases hbare
          · cases hop
        | wait _ _ hk => exact hunlocked _ c hk
      · obtain ⟨f, rest, hnew, -, hrest⟩ := point_begun hexec hm hmove
        rw [hpoint] at hnew
        cases hnew
        exact hrest c rfl
    · rcases htrans.point_idle h.hosted.calm.lives fun hcur hrun => hexec ⟨hcur, hrun⟩ with
        hsame | ⟨-, hnew | hnew⟩
      · exact h.unlocked t f c (hsame.symm.trans hpoint)
      · rw [hnew] at hpoint
        cases hpoint
      · rw [hnew] at hpoint
        cases hpoint

theorem Staged.step (h : Staged P w) (hP : P.Bare) (hstep : w.step g P tick = some w') :
    Staged P w' where
  hosted := h.hosted.step hP.plain hstep
  waited := by
    rcases (World.goes hstep).sys with hsys | ⟨m, hmove, -⟩
    · exact hsys ▸ h.waited
    · exact (step_trans hmove).waited h.waited
  waits _ _ := h.step_waits hstep
  unlocked := h.step_unlocked hP hstep

theorem World.Opens.staged {calls : List MainCall} {shared : G}
    (h : World.Opens P calls shared w) : Staged P w where
  hosted := h.hosted
  waited := by
    have hrun : Run (Threads.step .statement) AnyTiming w.sys w.sys := .refl _
    exact waited_of_run h.initial hrun
  waits t c hpoint := by
    rw [h.initial.point] at hpoint
    cases hpoint
  unlocked t f c := by simp [h.initial.point]

end Staged

section Beats

variable {P : Program G L} {g : Grain} {w w' : World G L} {tick : Tick} {t : Tid} {s s' : State}
  {m : Move} {op : Op} {f : Frame} {k : List Frame} {c : CondId} {p : ℤ}

theorem on_top (hstack : s.stack = f :: k) (hf : f.isTimer = false) (hf' : f.isSystem = false) :
    s.on = some s.currentRunningThread := by
  rw [State.on, if_neg (by rw [hstack]; exact body_own_ne_nil hf hf')]

theorem on_body (hbody : body s'.stack = body s.stack)
    (hcur : s'.currentRunningThread = s.currentRunningThread) : s'.on = s.on := by
  rw [State.on, State.on, hbody, hcur]

theorem on_none (h : body s.stack = []) : s.on = none := if_pos h

/-- Only `t_fork` gives a tcb its priority. -/
theorem Trans.priority_kept (h : Trans g s m s')
    (hfork : ∀ f v p k, s.stack ≠ .enter (.tFork f v p) :: k) :
    (fun t => (s'.tcb t).priority) = fun t => (s.tcb t).priority := by
  have hupdate : ∀ (u : Tid) (c : Tcb), c.priority = (s.tcb u).priority →
      (fun t => (Function.update s.tcb u c t).priority) = fun t => (s.tcb t).priority := by
    intro u c hc
    funext t
    by_cases htu : t = u
    · rw [htu, Function.update_self, hc]
    · rw [Function.update_of_ne htu]
  cases h with
  | suspend | join | sigWake | exit | leave | dispatchNew => exact hupdate _ _ rfl
  | fork f v p k _ _ _ hstack => exact absurd hstack (hfork f v p k)
  | _ => rfl

/-- A thread ends by `t_exit`, or when its function returns. -/
theorem Trans.over_kept (h : Trans g s .exec s')
    (hexit : ∀ v k, s.stack ≠ .enter (.tExit v) :: k) : {t | s'.Ended t} = {t | s.Ended t} := by
  ext t
  simp only [Set.mem_ofPred_eq, State.Ended]
  cases h with
  | control m k b es h => cases h <;> simp
  | exit v k hstack => exact absurd hstack (hexit v k)
  | _ => simp

/-- A step that is nothing to the program. -/
theorem stage_same {threads : Tid → L} (hon : s.on = w.sys.on)
    (hqueues : s.contents = w.sys.contents) (hdue : ∀ t, s.due t = w.sys.due t)
    (hthreads : threads = w.threads)
    (hprio : (fun t => (s.tcb t).priority) = fun t => (w.sys.tcb t).priority)
    (hlast : s.gThreadID = w.sys.gThreadID) (hover : {t | s.Ended t} = {t | w.sys.Ended t}) :
    World.stage ⟨s, w.shared, threads⟩ = w.stage := by
  subst hthreads
  exact Stage.ext rfl hon hqueues (funext fun t => Prod.ext (hdue t) rfl) hprio hlast hover

/-- One place has changed. -/
theorem stage_pos {c : Tid} {y : Option Op × L} (hcur : (w'.sys.due c, w'.threads c) = y)
    (hdue : ∀ t, t ≠ c → w'.sys.due t = w.sys.due t)
    (hthreads : ∀ t, t ≠ c → w'.threads t = w.threads t) :
    w'.stage.pos = Function.update w.stage.pos c y := by
  funext t
  by_cases ht : t = c
  · rw [ht, Function.update_self]
    exact hcur
  · rw [Function.update_of_ne ht]
    exact Prod.ext (hdue t ht) (hthreads t ht)

theorem Hosted.due_others (hh : Hosted P w) (hstep : Threads.step g m w.sys = some s)
    (ht : t ≠ w.sys.currentRunningThread) : s.due t = w.sys.due t :=
  (step_trans hstep).due_kept hh.calm.lives fun heq => absurd heq ht

theorem Hosted.queues_step (hh : Hosted P w) (hstep : Threads.step g m w.sys = some s) :
    QueuesOk AllQueues w.sys ∧ QueuesOk AllQueues s :=
  ⟨hh.calm.unjoined.queues,
    (step_trans hstep).queuesOk hh.calm.unjoined.queues hh.calm.unjoined.joinFree.steady⟩

/-- Nothing has happened to the program, or a beat. -/
def Seen (P : Program G L) (w w' : World G L) : Prop :=
  w'.stage = w.stage ∨ Beat P w.stage w'.stage

theorem dueAt_none (hf : ∀ op, f ≠ .enter op) (hf' : ∀ c, f ≠ .waiting c) :
    dueAt (f :: k) = none := by
  unfold dueAt
  split
  · rename_i op heq
    exact absurd (List.cons.inj heq).1 (hf op)
  · rename_i c heq
    exact absurd (List.cons.inj heq).1 (hf' c)
  · rfl

theorem launch_same {threads : Tid → L}
    (hfork : ∀ f v p k, s.stack ≠ .enter (.tFork f v p) :: k)
    (hstart : ∀ k, s.stack ≠ .start :: k) : P.launch s threads = threads := by
  unfold Program.launch
  split
  · rename_i hstack
    exact absurd hstack (hfork _ _ _ _)
  · rename_i hstack
    exact absurd hstack (hstart _)
  · rfl

/-- A step of the running thread that leaves it on the processor, with the same call due. -/
theorem Hosted.same_top {f' : Frame} {k' : List Frame} (hh : Hosted P w)
    (hstep : Threads.step g .exec w.sys = some s) (hstack : w.sys.stack = f :: k)
    (hf : f.isTimer = false ∧ f.isSystem = false) (hstack' : s.stack = f' :: k')
    (hf' : f'.isTimer = false ∧ f'.isSystem = false)
    (hcur : s.currentRunningThread = w.sys.currentRunningThread)
    (hdue : dueAt (f' :: k') = dueAt (f :: k)) (hqueues : s.contents = w.sys.contents)
    (hthreads : P.launch w.sys w.threads = w.threads)
    (hfork : ∀ f v p k, w.sys.stack ≠ .enter (.tFork f v p) :: k)
    (hexit : ∀ v k, w.sys.stack ≠ .enter (.tExit v) :: k) :
    Seen P w ⟨s, w.shared, P.launch w.sys w.threads⟩ := by
  have h := step_trans hstep
  refine Or.inl (stage_same ?_ hqueues (fun t => ?_) hthreads (h.priority_kept hfork)
    (gThreadID_kept hstep fun _ => hfork) (h.over_kept hexit))
  · rw [on_top hstack hf.1 hf.2, on_top hstack' hf'.1 hf'.2, hcur]
  · by_cases ht : t = w.sys.currentRunningThread
    · subst ht
      rw [← hcur, due_top hstack' hf'.1 hf'.2, hcur, due_top hstack hf.1 hf.2, hdue]
    · exact hh.due_others hstep ht

/-- A step at which no thread is on the processor, and that does nothing to the queues. -/
theorem Hosted.same_none (hh : Hosted P w) (hstep : Threads.step g .exec w.sys = some s)
    (hstack : w.sys.stack = f :: k) (hf : f.isTimer = true ∨ f.isSystem = true)
    (hbody : body s.stack = body w.sys.stack)
    (hcur : s.currentRunningThread = w.sys.currentRunningThread)
    (hqueues : s.contents = w.sys.contents) :
    Seen P w ⟨s, w.shared, P.launch w.sys w.threads⟩ := by
  have h := step_trans hstep
  have hnot : ∀ op k, w.sys.stack ≠ .enter op :: k := by
    intro op k hk
    rw [hstack] at hk
    cases hk
    rcases hf with hf | hf <;> cases hf
  have hstart : ∀ k, w.sys.stack ≠ .start :: k := by
    intro k hk
    rw [hstack] at hk
    cases hk
    rcases hf with hf | hf <;> cases hf
  refine Or.inl (stage_same (on_body hbody hcur) hqueues (fun t => ?_) ?_
    (h.priority_kept fun f v p => hnot (.tFork f v p))
    (gThreadID_kept hstep fun _ f v p => hnot (.tFork f v p))
    (h.over_kept fun v => hnot (.tExit v)))
  · refine h.due_kept hh.calm.lives fun _ hexec => ?_
    obtain ⟨-, f', k', hstack', hf', hf''⟩ := hexec
    rw [hstack] at hstack'
    cases hstack'
    rcases hf with hf | hf
    · exact absurd (hf.symm.trans hf') (by simp)
    · exact absurd (hf.symm.trans hf'') (by simp)
  · exact launch_same (fun f v p => hnot (.tFork f v p)) hstart

/-- A step of the running thread leaves the others where they are. -/
theorem Hosted.stage_moved {y : Option Op} {threads : Tid → L} (hh : Hosted P w)
    (hstep : Threads.step g .exec w.sys = some s)
    (hthreads : threads = w.threads) (hdue : s.due w.sys.currentRunningThread = y) :
    (World.stage ⟨s, w.shared, threads⟩).pos =
      Function.update w.stage.pos w.sys.currentRunningThread
        (y, w.threads w.sys.currentRunningThread) := by
  subst hthreads
  exact stage_pos (Prod.ext hdue rfl) (fun t ht => hh.due_others hstep ht) fun _ _ => rfl

/-- What a step leaves when it forks no thread and lets none enter its function. -/
theorem Hosted.stage_step (hh : Hosted P w) (hstep : Threads.step g .exec w.sys = some s)
    (hfork : ∀ f v p k, w.sys.stack ≠ .enter (.tFork f v p) :: k)
    (hstart : ∀ k, w.sys.stack ≠ .start :: k) :
    World.stage ⟨s, w.shared, P.launch w.sys w.threads⟩ =
      { w.stage with
        on := s.on
        queues := s.contents
        pos := Function.update w.stage.pos w.sys.currentRunningThread
          (s.due w.sys.currentRunningThread, w.threads w.sys.currentRunningThread)
        finished := {t | s.Ended t} } := by
  have htrans := step_trans hstep
  exact Stage.ext rfl rfl rfl (hh.stage_moved hstep (launch_same hfork hstart) rfl)
    (htrans.priority_kept hfork) (gThreadID_kept hstep fun _ => hfork) rfl

/-- A routine takes effect and returns, and may have changed the queues. -/
theorem Hosted.stage_routine {op : Op} {v : Value} (hh : Hosted P w)
    (hstep : Threads.step g .exec w.sys = some s) (hstack : w.sys.stack = .enter op :: k)
    (hstack' : s.stack = .ret v :: k)
    (hcur : s.currentRunningThread = w.sys.currentRunningThread)
    (hfork : ∀ f v p, op ≠ .tFork f v p) (hexit : ∀ v, op ≠ .tExit v) :
    World.stage ⟨s, w.shared, P.launch w.sys w.threads⟩ =
      { w.stage with
        queues := s.contents
        pos := Function.update w.stage.pos w.sys.currentRunningThread
          (none, w.threads w.sys.currentRunningThread) } := by
  have hnot : ∀ op' k', w.sys.stack = .enter op' :: k' → op' = op := by
    intro op' k' hk
    rw [hstack] at hk
    cases hk
    rfl
  have hon : s.on = w.sys.on := by
    rw [on_top hstack' rfl rfl, on_top hstack rfl rfl, hcur]
  have hdue : s.due w.sys.currentRunningThread = none := by
    rw [← hcur, due_top hstack' rfl rfl]
    exact dueAt_none (by simp) (by simp)
  have hover := (step_trans hstep).over_kept fun v _ hk => hexit v (hnot _ _ hk).symm
  rw [hh.stage_step hstep (fun f v p _ hk => hfork f v p (hnot _ _ hk).symm) (by simp [hstack]),
    hon, hdue, hover]
  rfl

/-- A `t_sig` that finds no waiter. -/
theorem Staged.sig_none (h : Staged P w) (hP : P.Bare) {v : AnyPtr} {lock : Option LockId}
    (hstep : Threads.step g .exec w.sys = some s)
    (hstack : w.sys.stack = .enter (.tSig c v lock) :: k) (hstack' : s.stack = .ret .void :: k)
    (hcur : s.currentRunningThread = w.sys.currentRunningThread)
    (hqueues : s.contents = w.sys.contents)
    (hscan : scan (w.sys.conditionWaiters c) 128 = none) :
    Seen P w ⟨s, w.shared, P.launch w.sys w.threads⟩ := by
  obtain ⟨rfl, hbare, hdue⟩ | ⟨hop, -⟩ := h.enter_cases hP hstack
  · have hlock : lock = none := by cases lock <;> first | rfl | cases hbare
    subst hlock
    refine Or.inr ?_
    rw [h.hosted.stage_routine hstep hstack hstack' hcur (by simp) (by simp), hqueues]
    exact .sigNone _ c v _ (on_top hstack rfl rfl) (Prod.ext hdue rfl)
      ((h.waited.waitersOk c).scan_none.mp hscan)
  · cases hop

/-- A step between two points of the running thread at which no call is due. -/
theorem Hosted.stay {f' : Frame} {k' : List Frame} (hh : Hosted P w)
    (hstep : Threads.step g .exec w.sys = some s) (hstack : w.sys.stack = f :: k)
    (hf : f.isTimer = false ∧ f.isSystem = false) (henter : ∀ op, f ≠ .enter op)
    (hwaiting : ∀ c, f ≠ .waiting c) (hstart : f ≠ .start) (hstack' : s.stack = f' :: k')
    (hf' : f'.isTimer = false ∧ f'.isSystem = false) (henter' : ∀ op, f' ≠ .enter op)
    (hwaiting' : ∀ c, f' ≠ .waiting c)
    (hcur : s.currentRunningThread = w.sys.currentRunningThread)
    (hqueues : s.contents = w.sys.contents) :
    Seen P w ⟨s, w.shared, P.launch w.sys w.threads⟩ := by
  have hnot : ∀ op k, w.sys.stack ≠ .enter op :: k := by
    intro op k hk
    rw [hstack] at hk
    exact henter op (List.cons.inj hk).1
  refine hh.same_top hstep hstack hf hstack' hf' hcur ?_ hqueues
    (launch_same (fun f v p => hnot _) fun k hk => ?_) (fun f v p => hnot _) fun v => hnot _
  · rw [dueAt_none henter hwaiting, dueAt_none henter' hwaiting']
  · rw [hstack] at hk
    exact hstart (List.cons.inj hk).1

/-- What the routines of such a program return to. -/
theorem Staged.below (h : Staged P w) (hstack : w.sys.stack = f :: k) (hf : f.isCall = true) :
    k = [.user] ∨ ∃ tid, k = [.forked tid, .user] := by
  have hs := h.hosted.calm.lives.regular.shaped.stack
  rw [hstack] at hs
  rcases hs.below_inner hf with rfl | ⟨tid, -, rfl⟩ | ⟨c, -, rfl⟩
  · exact Or.inl rfl
  · exact Or.inr ⟨tid, rfl⟩
  · have hown : f.isTimer = false ∧ f.isSystem = false := by
      cases f <;> simp_all [Frame.isCall, Frame.isBase, Frame.isTimer, Frame.isSystem]
    refine absurd ?_ (h.unlocked w.sys.currentRunningThread f c)
    rw [State.point_current (by rw [hstack]; exact body_own_ne_nil hown.1 hown.2), hstack,
      body_own hown.1 hown.2]

/-- A thread enters its function. -/
theorem Hosted.start_seen (hh : Hosted P w) (hstep : Threads.step g .exec w.sys = some s)
    (hstack : w.sys.stack = .start :: k) (hown : EntersOwn .run w) :
    Seen P w ⟨s, w.shared, P.launch w.sys w.threads⟩ := by
  obtain ⟨rfl, hplace⟩ := hh.newborn hstack
  have hs := step_start hstack hstep
  have hbody : w.threads w.sys.currentRunningThread =
      P.body w.sys.current.func w.sys.current.arg := congrArg Prod.snd hplace
  have hstack' : s.stack = [.user] := by rw [hs]; rfl
  refine hh.same_top hstep hstack ⟨rfl, rfl⟩ hstack' ⟨rfl, rfl⟩ (by rw [hs]; rfl) rfl
    (by rw [hs]; rfl) ?_ (fun _ _ _ _ hk => ?_) (fun _ _ hk => ?_)
  · simp only [Program.launch, hstack, hown rfl hstack]
    exact Function.update_eq_self_iff.mpr hbody.symm
  · rw [hstack] at hk
    cases hk
  · rw [hstack] at hk
    cases hk

/-- `t_wait` without a lock goes on to its `disableTimer`. -/
theorem Staged.wait_seen (h : Staged P w) (hP : P.Bare)
    (hstep : Threads.step g .exec w.sys = some s)
    (hstack : w.sys.stack = .enter (.tWait c none) :: k) (hstack' : s.stack = .waiting c :: k)
    (hcur : s.currentRunningThread = w.sys.currentRunningThread)
    (hqueues : s.contents = w.sys.contents) :
    Seen P w ⟨s, w.shared, P.launch w.sys w.threads⟩ := by
  obtain ⟨rfl, -, -⟩ | ⟨hop, -⟩ := h.enter_cases hP hstack
  · refine h.hosted.same_top hstep hstack ⟨rfl, rfl⟩ hstack' ⟨rfl, rfl⟩ hcur rfl hqueues
      (launch_same (fun _ _ _ _ hk => ?_) fun _ hk => ?_) (fun _ _ _ _ hk => ?_) fun _ _ hk => ?_
    all_goals
      rw [hstack] at hk
      cases hk
  · cases hop

/-- The steps that change only the stack, the mask and the history. -/
theorem Staged.control_seen (h : Staged P w) (hP : P.Bare) {b : Bool} {es : List Event}
    (hctl : Control w.sys .exec k b es) (hown : EntersOwn .run w)
    (hstep : Threads.step g .exec w.sys = some s)
    (hs : s = { w.sys with stack := k, blocked := b, hist := es ++ w.sys.hist }) :
    Seen P w ⟨s, w.shared, P.launch w.sys w.threads⟩ := by
  have hh := h.hosted
  have hstack' : s.stack = k := by rw [hs]
  have hcur : s.currentRunningThread = w.sys.currentRunningThread := by rw [hs]
  have hqueues : s.contents = w.sys.contents := by rw [hs]; rfl
  cases hctl with
  | joinDone _ _ hstack | waitLock _ _ _ hstack | acquire _ _ hstack =>
    rcases h.enter_cases hP hstack with ⟨-, hbare, -⟩ | ⟨hop, -⟩
    · cases hbare
    · cases hop
  | nullReturn op _ hstack hop =>
    rcases h.enter_cases hP hstack with ⟨-, hbare, -⟩ | ⟨rfl, -⟩
    · cases hop <;> cases hbare
    · cases hop
  | waitNull c k hstack => exact h.wait_seen hP hstep hstack hstack' hcur hqueues
  | sigNone c v lock k hstack hscan => exact h.sig_none hP hstep hstack hstack' hcur hqueues hscan
  | sigEmpty c v lock k i hstack hscan hempty =>
    obtain ⟨h0, hlt, t, rest, hwaits, -⟩ := (h.waited.waitersOk c).scan_some hscan
    obtain ⟨-, -, hfull, -⟩ := hh.calm.unjoined.queues.move hwaits ⟨h0, hlt⟩
    rw [hempty] at hfull
    cases hfull
  | resumed _ hstack | handled _ hstack =>
    exact hh.same_none hstep hstack (Or.inl rfl) (by rw [hstack', hstack]; rfl) hcur hqueues
  | sitBottom _ hstack | idle _ hstack =>
    exact hh.same_none hstep hstack (Or.inr rfl) (by rw [hstack', hstack]; rfl) hcur hqueues
  | ret _ _ hstack | waitedNull _ hstack =>
    rcases h.below hstack rfl with rfl | ⟨tid, rfl⟩ <;>
      exact hh.stay hstep hstack ⟨rfl, rfl⟩ (by simp) (by simp) (by simp) hstack' ⟨rfl, rfl⟩
        (by simp) (by simp)
        hcur hqueues
  | start _ hstack => exact hh.start_seen hstep hstack hown
  | enable f k hstack hf =>
    rcases hf with rfl | rfl | rfl <;>
      exact hh.stay hstep hstack ⟨rfl, rfl⟩ (by simp) (by simp) (by simp) hstack' ⟨rfl, rfl⟩
        (by simp) (by simp)
        hcur hqueues
  | forked _ _ hstack | joined _ _ hstack | waitedLock _ _ hstack | spinBusy _ _ _ hstack
  | spinFree _ _ hstack | wakeSkip _ _ _ hstack | wakeHit _ _ _ hstack | wakeEnd _ _ hstack
  | testHit _ _ _ hstack | testMiss _ _ _ hstack | take _ _ _ hstack =>
    exact hh.stay hstep hstack ⟨rfl, rfl⟩ (by simp) (by simp) (by simp) hstack' ⟨rfl, rfl⟩
      (by simp) (by simp)
      hcur hqueues
/-- `cond_create`. -/
theorem Staged.made_seen (h : Staged P w) (hP : P.Bare) {lock : Option LockId}
    (hstep : Threads.step g .exec w.sys = some s)
    (hstack : w.sys.stack = .enter (.condCreate lock true) :: k) {v : Value}
    (hstack' : s.stack = .ret v :: k)
    (hcur : s.currentRunningThread = w.sys.currentRunningThread)
    (hqueues : s.contents = w.sys.contents) :
    Seen P w ⟨s, w.shared, P.launch w.sys w.threads⟩ := by
  obtain ⟨rfl, -, hdue⟩ | ⟨hop, -⟩ := h.enter_cases hP hstack
  · refine Or.inr ?_
    rw [h.hosted.stage_routine hstep hstack hstack' hcur (by simp) (by simp), hqueues]
    exact .made _ lock _ (on_top hstack rfl rfl) (Prod.ext hdue rfl)
  · cases hop

/-- A `t_sig` that wakes a waiter. -/
theorem Staged.sig_wake (h : Staged P w) (hP : P.Bare) {v : AnyPtr} {lock : Option LockId}
    (hstep : Threads.step g .exec w.sys = some s)
    (hstack : w.sys.stack = .enter (.tSig c v lock) :: k) (hstack' : s.stack = .ret .void :: k)
    (hcur : s.currentRunningThread = w.sys.currentRunningThread)
    (hscan : scan (w.sys.conditionWaiters c) 128 = some p)
    (hhist : s.hist = .inserted (.ready (w.sys.tcb t).priority) t :: .removed (.cond c p) t ::
      w.sys.hist) :
    Seen P w ⟨s, w.shared, P.launch w.sys w.threads⟩ := by
  obtain ⟨rfl, hbare, hdue⟩ | ⟨hop, -⟩ := h.enter_cases hP hstack
  · have hlock : lock = none := by cases lock <;> first | rfl | cases hbare
    subst hlock
    obtain ⟨hq, hq'⟩ := h.hosted.queues_step hstep
    obtain ⟨rest, hhead, hcontents⟩ := contents_move (q := .cond c p)
      (r := .ready (w.sys.tcb t).priority) (t := t) hq hq' (by simp) hhist
    obtain ⟨-, -, -, -, -, -, hhigh⟩ := (h.waited.waitersOk c).scan_some hscan
    refine Or.inr ?_
    rw [h.hosted.stage_routine hstep hstack hstack' hcur (by simp) (by simp), hcontents]
    refine .sigWake _ c v _ p t rest (on_top hstack rfl rfl) (Prod.ext hdue rfl) hhead ?_
    intro q hlt
    refine List.eq_nil_iff_forall_not_mem.mpr fun u hu => ?_
    have hle := hhigh q u hu
    rw [((h.waited.waitersOk c).priority q u hu).1] at hle
    exact absurd hlt (not_lt_of_ge hle)
  · cases hop

/-- `t_fork`. -/
theorem Staged.fork_seen (h : Staged P w) (hP : P.Bare) {f : ThreadFunc} {v : AnyPtr}
    (hstep : Threads.step g .exec w.sys = some s)
    (hstack : w.sys.stack = .enter (.tFork f v p) :: k) {f' : Frame} {k' : List Frame}
    (hstack' : s.stack = f' :: k') (hf' : f'.isTimer = false ∧ f'.isSystem = false)
    (hdue' : dueAt (f' :: k') = none)
    (hprio : s.tcb = Function.update w.sys.tcb (w.sys.gThreadID + 1)
      { func := f, arg := v, priority := p, flag := 1 }) :
    Seen P w ⟨s, w.shared, P.launch w.sys w.threads⟩ := by
  obtain ⟨rfl, -, hdue⟩ | ⟨hop, -⟩ := h.enter_cases hP hstack
  · have hh := h.hosted
    have htrans := step_trans hstep
    obtain ⟨hcur, hid, hhist⟩ := hh.calm.forked_made hstack hstep
    obtain ⟨hq, hq'⟩ := hh.queues_step hstep
    have hforked := hh.calm.forked_top hstack rfl rfl
    have hne : w.sys.currentRunningThread ≠ w.sys.gThreadID + 1 :=
      ne_of_lt (lt_of_le_of_lt hforked.2 (lt_next _))
    have hcontents := contents_append (f := id) (i := .ready p) (t := w.sys.gThreadID + 1) hq hq'
      (fun r => by simp [hhist, removedAt]) fun r => by simp [hhist, insertedAt]
    have hlaunch : P.launch w.sys w.threads =
        Function.update w.threads (w.sys.gThreadID + 1) (P.body f v) := by
      simp [Program.launch, hstack]
    have hspare : w.sys.due (w.sys.gThreadID + 1) = none := by
      obtain ⟨hentries, -, hnew⟩ := hh.calm.lives.starts.unmade _ (lt_next w.sys.gThreadID)
      have hnil : w.sys.point (w.sys.gThreadID + 1) = [] := by
        by_contra hpoint
        rcases hh.calm.lives.starts.entered _ hpoint with hmem | hentered
        · exact hnew (Or.inr hmem)
        · exact hentered hentries
      rw [State.due, hnil]
      rfl
    have hpos : (World.stage ⟨s, w.shared, P.launch w.sys w.threads⟩).pos =
        Function.update (Function.update w.stage.pos w.sys.currentRunningThread
          (none, w.threads w.sys.currentRunningThread)) (w.sys.gThreadID + 1)
          (none, P.body f v) := by
      rw [hlaunch]
      funext t
      by_cases hnew : t = w.sys.gThreadID + 1
      · subst hnew
        rw [Function.update_self]
        exact Prod.ext ((hh.due_others hstep hne.symm).trans hspare) (Function.update_self ..)
      · rw [Function.update_of_ne hnew]
        by_cases ht : t = w.sys.currentRunningThread
        · subst ht
          rw [Function.update_self]
          refine Prod.ext ?_ (Function.update_of_ne hnew ..)
          have htop := due_top hstack' hf'.1 hf'.2
          rw [hcur] at htop
          exact htop.trans hdue'
        · rw [Function.update_of_ne ht]
          exact Prod.ext (hh.due_others hstep ht) (Function.update_of_ne hnew ..)
    have hstage : World.stage ⟨s, w.shared, P.launch w.sys w.threads⟩ =
        { w.stage with
          queues := Levels.append w.stage.queues (.ready p) (w.stage.last + 1)
          pos := Function.update (Function.update w.stage.pos w.sys.currentRunningThread
            (none, w.threads w.sys.currentRunningThread)) (w.stage.last + 1) (none, P.body f v)
          priority := Function.update w.stage.priority (w.stage.last + 1) p
          last := w.stage.last + 1 } := by
      refine Stage.ext rfl ?_ hcontents hpos ?_ hid (htrans.over_kept (by simp [hstack]))
      · exact (on_top hstack' hf'.1 hf'.2).trans
          ((congrArg some hcur).trans (on_top hstack rfl rfl).symm)
      · funext t
        change (s.tcb t).priority = Function.update w.stage.priority (w.sys.gThreadID + 1) p t
        rw [hprio]
        by_cases hnew : t = w.sys.gThreadID + 1
        · subst hnew
          rw [Function.update_self, Function.update_self]
        · rw [Function.update_of_ne hnew, Function.update_of_ne hnew]
          rfl
    refine Or.inr ?_
    rw [hstage]
    exact .fork _ f v p _ (on_top hstack rfl rfl) (Prod.ext hdue rfl) hforked.2
  · cases hop

/-- The frames on which the timer handler has put itself. -/
theorem body_handler : body (.handler :: k) = body k := body_timer rfl

/-- Where the running thread is when it has been suspended. -/
theorem due_suspended {next : Frame} {k' : List Frame} (hstack' : s'.stack = [next])
    (hnext : next.isSystem = true) (hcontext : (s'.tcb t).context = some k') :
    s'.on = none ∧ s'.due t = dueAt (body k') := by
  have hbody : body s'.stack = [] := by
    rw [hstack']
    cases next <;> first | rfl | cases hnext
  rw [on_none hbody, State.due, State.point_of_nil hbody, hcontext]
  exact ⟨rfl, rfl⟩

theorem Hosted.appended {q : QRef} (hh : Hosted P w)
    (hstep : Threads.step g .exec w.sys = some s)
    (hhist : s.hist = .inserted q w.sys.currentRunningThread :: w.sys.hist) :
    s.contents = Levels.append w.sys.contents q w.sys.currentRunningThread := by
  obtain ⟨hq, hq'⟩ := hh.queues_step hstep
  exact contents_append (f := id) hq hq' (fun r => by simp [hhist, removedAt])
    fun r => by simp [hhist, insertedAt]

/-- The steps at which the running thread saves its context and enters a queue. -/
theorem Staged.suspend_seen {q : QRef} {next : Frame} {k' : List Frame} (h : Staged P w)
    (hP : P.Bare) (hstep : Threads.step g .exec w.sys = some s) (hsus : Suspends w.sys q f k next)
    (hstack' : s.stack = [next]) (hcontext : (s.tcb w.sys.currentRunningThread).context = some k')
    (hk' : k' = f :: k)
    (hhist : s.hist = .inserted q w.sys.currentRunningThread :: w.sys.hist) :
    Seen P w ⟨s, w.shared, P.launch w.sys w.threads⟩ := by
  subst hk'
  have hh := h.hosted
  have happend := hh.appended hstep hhist
  have hsame : ∀ {d : Option Op}, w.sys.due w.sys.currentRunningThread = d →
      Function.update w.stage.pos w.sys.currentRunningThread
        (d, w.threads w.sys.currentRunningThread) = w.stage.pos := by
    rintro d rfl
    exact Function.update_eq_self ..
  cases hsus with
  | yield k hstack =>
    obtain ⟨hon, hdue⟩ := due_suspended hstack' rfl hcontext
    have hover := (step_trans hstep).over_kept (by simp [hstack])
    have hstage := hh.stage_step hstep (by simp [hstack]) (by simp [hstack])
    rw [body_own rfl rfl, dueAt_none (by simp) (by simp)] at hdue
    rw [hon, hdue, hover, happend] at hstage
    refine Or.inr ?_
    rcases h.enter_cases hP hstack with ⟨rfl, -, hyield⟩ | ⟨-, tid, rfl⟩
    · rw [hstage]
      exact .yield _ _ (on_top hstack rfl rfl) (Prod.ext hyield rfl)
    · rw [hstage, hsame (by rw [due_top hstack rfl rfl]; rfl)]
      exact .preempt _ (on_top hstack rfl rfl)
  | timer k hstack =>
    obtain ⟨hon, hdue⟩ := due_suspended hstack' rfl hcontext
    have hover := (step_trans hstep).over_kept (by simp [hstack])
    have hstage := hh.stage_step hstep (by simp [hstack]) (by simp [hstack])
    have hkept : s.due w.sys.currentRunningThread = w.sys.due w.sys.currentRunningThread := by
      refine (step_trans hstep).due_kept hh.calm.lives fun _ hexec => ?_
      cases (hexec.top hstack).1
    rw [hkept, hover, happend, hsame rfl] at hstage
    refine Or.inr ?_
    by_cases hbody : body w.sys.stack = []
    · have hended := hh.calm.unjoined.ended.stack (not_vacant hstack rfl)
        (by rw [hbody]; simp [phase])
      rw [hstage, hon.trans (on_none hbody).symm]
      exact .linger _ (on_none hbody) hended hh.calm.unjoined.tids.current
    · rw [hstage, hon]
      exact .preempt _ (if_neg hbody)
  | wait c k hstack =>
    obtain ⟨hon, hdue⟩ := due_suspended hstack' rfl hcontext
    have hover := (step_trans hstep).over_kept (by simp [hstack])
    have hstage := hh.stage_step hstep (by simp [hstack]) (by simp [hstack])
    rw [body_own rfl rfl, dueAt_none (by simp) (by simp)] at hdue
    rw [hon, hdue, hover, happend] at hstage
    refine Or.inr ?_
    rw [hstage]
    rcases h.below hstack rfl with rfl | ⟨tid, rfl⟩
    · exact .sleep _ c _ (on_top hstack rfl rfl) (Prod.ext (due_top hstack rfl rfl) rfl)
    · have hs := hh.calm.lives.regular.shaped.stack
      rw [hstack] at hs
      rcases hs.below_inner rfl with hk | ⟨_, hin, -⟩ | ⟨_, -, hk⟩
      · cases hk
      · cases hin
      · cases hk
  | pass i v k hstack =>
    rcases h.enter_cases hP hstack with ⟨-, hbare, -⟩ | ⟨hop, -⟩
    · cases hbare
    · cases hop

/-- `t_exit`. -/
theorem Staged.exit_seen (h : Staged P w) (hP : P.Bare) {v : ℤ}
    (hstep : Threads.step g .exec w.sys = some s)
    (hstack : w.sys.stack = .enter (.tExit v) :: k) (hstack' : s.stack = [.sched])
    (hcontext : (s.tcb w.sys.currentRunningThread).context = none)
    (hqueues : s.contents = w.sys.contents)
    (hhist : s.hist = .ended w.sys.currentRunningThread :: w.sys.hist) :
    Seen P w ⟨s, w.shared, P.launch w.sys w.threads⟩ := by
  obtain ⟨rfl, -, hdue⟩ | ⟨hop, -⟩ := h.enter_cases hP hstack
  · have hbody : body s.stack = [] := by rw [hstack']; rfl
    have hdue' : s.due w.sys.currentRunningThread = none := by
      rw [State.due, State.point_of_nil hbody, hcontext]
      rfl
    have hover : {t | s.Ended t} = insert w.sys.currentRunningThread {t | w.sys.Ended t} := by
      ext t
      simp [State.Ended, hhist]
    have hstage := h.hosted.stage_step hstep (by simp [hstack]) (by simp [hstack])
    rw [on_none hbody, hqueues, hdue', hover] at hstage
    refine Or.inr ?_
    rw [hstage]
    exact .exit _ v _ (on_top hstack rfl rfl) (Prod.ext hdue rfl)
  · cases hop

/-- The last step of a thread whose function has returned. -/
theorem Hosted.leave_seen (hh : Hosted P w) (hstep : Threads.step g .exec w.sys = some s)
    (hstack : w.sys.stack = .leave :: k) (hstack' : s.stack = [.sitBottom])
    (hcontext : (s.tcb w.sys.currentRunningThread).context = none)
    (hqueues : s.contents = w.sys.contents) :
    Seen P w ⟨s, w.shared, P.launch w.sys w.threads⟩ := by
  have hbody : body s.stack = [] := by rw [hstack']; rfl
  have hdue : s.due w.sys.currentRunningThread = w.sys.due w.sys.currentRunningThread := by
    rw [State.due, State.point_of_nil hbody, hcontext, due_top hstack rfl rfl]
    exact (dueAt_none (by simp) (by simp)).symm
  have hover := (step_trans hstep).over_kept (by simp [hstack])
  have hstage := hh.stage_step hstep (by simp [hstack]) (by simp [hstack])
  have hpos : Function.update w.stage.pos w.sys.currentRunningThread
      (w.sys.due w.sys.currentRunningThread, w.threads w.sys.currentRunningThread) = w.stage.pos :=
    Function.update_eq_self ..
  rw [on_none hbody, hqueues, hdue, hover, hpos] at hstage
  refine Or.inr ?_
  rw [hstage]
  exact .leave _ (on_top hstack rfl rfl) (hh.calm.unjoined.ended.epilogue hstack rfl)

/-- `Scheduler` gives the processor to the thread, or what is left of the thread is nothing. -/
theorem Hosted.dispatch_seen {rest : List Tid} (hh : Hosted P w)
    (hstep : Threads.step g .exec w.sys = some s) (hstack : w.sys.stack = .sched :: k)
    (hscan : scan w.sys.threadLevelCount 128 = some p)
    (hhead : w.sys.contents (.ready p) = t :: rest)
    (hqueues : s.contents = Levels.set w.sys.contents (.ready p) rest)
    (hon : s.on = some t ∨ s.on = none ∧ w.sys.Ended t) :
    Seen P w ⟨s, w.shared, P.launch w.sys w.threads⟩ := by
  have hidle : ¬ w.sys.Executes .exec := by
    intro hexec
    cases (hexec.top hstack).2
  have hdue : s.due w.sys.currentRunningThread = w.sys.due w.sys.currentRunningThread :=
    (step_trans hstep).due_kept hh.calm.lives fun _ => hidle
  have hover := (step_trans hstep).over_kept (by simp [hstack])
  have hstage := hh.stage_step hstep (by simp [hstack]) (by simp [hstack])
  have hpos : Function.update w.stage.pos w.sys.currentRunningThread
      (w.sys.due w.sys.currentRunningThread, w.threads w.sys.currentRunningThread) = w.stage.pos :=
    Function.update_eq_self ..
  rw [hqueues, hdue, hover, hpos] at hstage
  refine Or.inr ?_
  rw [hstage]
  refine .dispatch t p rest s.on (on_none (by rw [hstack]; rfl)) hhead ?_ hon
  exact fun q hlt => hh.calm.unjoined.queues.levels_empty
    fun _ hlt' => (scan_spec hscan).2.2.2 q hlt hlt'

/-- Each step of the library is nothing to the program or a beat. -/
theorem Staged.exec_seen (h : Staged P w) (hP : P.Bare) (hown : EntersOwn .run w)
    (hstep : Threads.step g .exec w.sys = some s) :
    Seen P w ⟨s, w.shared, P.launch w.sys w.threads⟩ := by
  have hh := h.hosted
  have htrans := step_trans hstep
  have hbare : ∀ {op : Op} {k : List Frame}, w.sys.stack = .enter op :: k → op.bare = false →
      op ≠ .tYield → False := by
    intro op k hstack hop hne
    rcases h.enter_cases hP hstack with ⟨-, hop', -⟩ | ⟨hop', -⟩
    · rw [hop] at hop'
      cases hop'
    · exact hne hop'
  cases htrans with
  | control m k b es hctl => exact h.control_seen hP hctl hown hstep rfl
  | suspend q f k next store hsus =>
    exact h.suspend_seen hP hstep hsus rfl (by simp) rfl rfl
  | fork f v p k k' b store hstack _ _ caller _ hk =>
    rcases hk with ⟨-, rfl, -⟩ | ⟨-, rfl, -⟩
    · exact h.fork_seen hP hstep hstack rfl ⟨rfl, rfl⟩ rfl rfl
    · exact h.fork_seen hP hstep hstack rfl ⟨rfl, rfl⟩ (dueAt_none (by simp) (by simp)) rfl
  | sigWake c val lock k i u store store' hstack hscan =>
    exact h.sig_wake hP hstep hstack rfl rfl hscan rfl
  | newCond lock k hstack =>
    refine h.made_seen hP hstep hstack rfl rfl ?_
    obtain ⟨hq, hq'⟩ := hh.queues_step hstep
    exact contents_same (f := id) hq hq' fun q => ⟨rfl, rfl⟩
  | exit v k hstack => exact h.exit_seen hP hstep hstack rfl (by simp) rfl rfl
  | leave k hstack => exact hh.leave_seen hstep hstack rfl (by simp) rfl
  | dispatchNew y t k store hstack hscan =>
    obtain ⟨hq, hq'⟩ := hh.queues_step hstep
    obtain ⟨rest, hhead, hcontents⟩ := contents_take (f := id) (i := .ready y) (t := t) hq hq'
      (fun r => by simp [insertedAt]) fun r => by simp [removedAt]
    exact hh.dispatch_seen hstep hstack hscan hhead hcontents (Or.inl (on_top rfl rfl rfl))
  | dispatchOld y t k k' store hstack hscan _ _ _ hcontext =>
    obtain ⟨hq, hq'⟩ := hh.queues_step hstep
    obtain ⟨rest, hhead, hcontents⟩ := contents_take (f := id) (i := .ready y) (t := t) hq hq'
      (fun r => by simp [insertedAt]) fun r => by simp [removedAt]
    refine hh.dispatch_seen hstep hstack hscan hhead hcontents ?_
    by_cases hbody : body k' = []
    · exact Or.inr ⟨on_none hbody,
        hh.calm.unjoined.ended.context t k' hcontext (by rw [hbody]; simp [phase])⟩
    · exact Or.inl (if_neg hbody)
  | lock l k v hstack =>
    rcases h.below hstack rfl with rfl | ⟨tid, rfl⟩ <;>
      exact hh.stay hstep hstack ⟨rfl, rfl⟩ (by simp) (by simp) (by simp) rfl ⟨rfl, rfl⟩ (by simp)
        (by simp) rfl rfl
  | record i k hstack =>
    exact hh.stay hstep hstack ⟨rfl, rfl⟩ (by simp) (by simp) (by simp) rfl ⟨rfl, rfl⟩ (by simp)
      (by simp) rfl rfl
  | join _ _ _ hstack | unlock _ _ _ hstack | semWake _ _ _ _ _ _ hstack | semFree _ _ _ hstack
  | newLock _ hstack | newSem _ _ hstack =>
    exact (hbare hstack rfl (by simp)).elim
  | semValue op _ _ _ _ hstack _ hop =>
    rcases hop with ⟨rfl, -⟩ | ⟨rfl, -⟩ <;> exact (hbare hstack rfl (by simp)).elim
  | insertWhole _ _ _ _ _ hstack | insertCall _ _ _ _ _ _ hstack
  | inserting _ _ _ _ _ _ _ _ _ hstack | inserted _ _ _ _ _ _ _ hstack
  | counted _ _ _ _ _ _ hstack =>
    cases hh.calm.unjoined.joinFree.top hstack

/-- Each step of a world is nothing to the program or a beat. -/
theorem Staged.seen (h : Staged P w) (hP : P.Bare) (hown : EntersOwn tick w)
    (hstep : w.step g P tick = some w') : Seen P w w' := by
  have hh := h.hosted
  cases World.goes hstep with
  | expire s hmove =>
    have hs := hmove
    simp only [Threads.step] at hs
    split at hs
    · cases hs
    · cases hs
      refine Or.inl (stage_same (on_body body_handler rfl) rfl (fun t => ?_) rfl rfl rfl rfl)
      exact (step_trans hmove).due_kept hh.calm.lives fun _ hexec => hexec.1 rfl
  | act shared next hstack hcode =>
    refine Or.inr ?_
    have hdue : w.sys.due w.sys.currentRunningThread = none :=
      (due_top hstack rfl rfl).trans rfl
    have hstage : (World.stage ⟨w.sys, shared,
        Function.update w.threads w.sys.currentRunningThread next⟩) =
        { w.stage with
          shared := shared
          pos := Function.update w.stage.pos w.sys.currentRunningThread (none, next) } := by
      refine Stage.ext rfl rfl rfl ?_ rfl rfl rfl
      exact stage_pos (Prod.ext hdue (Function.update_self ..)) (fun _ _ => rfl)
        fun t ht => Function.update_of_ne ht ..
    exact hstage ▸ .act _ _ next shared (on_top hstack rfl rfl) (Prod.ext hdue rfl) hcode
  | call op next s hstack hcode hmove =>
    refine Or.inr ?_
    have hdue : w.sys.due w.sys.currentRunningThread = none :=
      (due_top hstack rfl rfl).trans rfl
    have hs := hmove
    simp only [Threads.step, hstack, if_true, Option.some.injEq] at hs
    have hstack' : s.stack = [.enter op, .user] := by rw [← hs]; rfl
    have hcur : s.currentRunningThread = w.sys.currentRunningThread := by rw [← hs]; rfl
    have hdue' : s.due w.sys.currentRunningThread = some op := by
      rw [← hcur, due_top hstack' rfl rfl]
      rfl
    have hstage : (World.stage ⟨s, w.shared,
        Function.update w.threads w.sys.currentRunningThread next⟩) =
        { w.stage with
          pos := Function.update w.stage.pos w.sys.currentRunningThread (some op, next) } := by
      refine Stage.ext rfl ?_ (by rw [← hs]; rfl) ?_ (by rw [← hs]; rfl) (by rw [← hs]; rfl)
        (by rw [← hs]; rfl)
      · exact (on_top hstack' rfl rfl).trans
          ((congrArg some hcur).trans (on_top hstack rfl rfl).symm)
      · exact stage_pos (Prod.ext hdue' (Function.update_self ..))
          (fun t ht => hh.due_others hmove ht) fun t ht => Function.update_of_ne ht ..
    exact hstage ▸ .call _ op _ next (on_top hstack rfl rfl) (Prod.ext hdue rfl) hcode
  | ret s hstack hcode hmove =>
    refine Or.inr ?_
    have hdue : w.sys.due w.sys.currentRunningThread = none :=
      (due_top hstack rfl rfl).trans rfl
    have hs := hmove
    simp only [Threads.step, hstack, if_true, Option.some.injEq] at hs
    have hstack' : s.stack = [.wake 0 false] := by rw [← hs]; rfl
    have hcur : s.currentRunningThread = w.sys.currentRunningThread := by rw [← hs]; rfl
    have hstage : (World.stage ⟨s, w.shared, w.threads⟩) =
        { w.stage with finished := insert w.sys.currentRunningThread w.stage.finished } := by
      refine Stage.ext rfl ?_ (by rw [← hs]; rfl) (funext fun t => Prod.ext ?_ rfl)
        (by rw [← hs]; rfl) (by rw [← hs]; rfl) ?_
      · exact (on_top hstack' rfl rfl).trans
          ((congrArg some hcur).trans (on_top hstack rfl rfl).symm)
      · by_cases ht : t = w.sys.currentRunningThread
        · subst ht
          change s.due _ = w.sys.due _
          rw [hdue, ← hcur, due_top hstack' rfl rfl]
          rfl
        · exact hh.due_others hmove ht
      · ext t
        simp [World.stage, State.Ended, ← hs, State.log, State.goto]
    exact hstage ▸ .finish _ _ (on_top hstack rfl rfl) (Prod.ext hdue rfl) hcode
  | exec s hstack hmove => exact h.exec_seen hP hown hmove

end Beats

end UserThreads.Threads
