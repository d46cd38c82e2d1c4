import UserThreads.Sections

/-!
A thread by itself. The timer can fire and other threads can run between any two steps of a
thread, and it can be suspended in the middle of a routine and brought back by `longjmp`. As
long as nothing overwrites its stack, it goes on where it was: its program points and its place
in the program change as those of a sequential program do that calls routines which return to
their caller.
-/
namespace UserThreads.Threads

open LinkedCells Queue Runs Relation

/-- What a routine that is called leaves in the place of the call. -/
inductive Begins : Op → List Frame → Prop
  | fork (f : ThreadFunc) (v : AnyPtr) (p n : ℤ) : Begins (.tFork f v p) [.ret (.int n)]
  | forkYield (f : ThreadFunc) (v : AnyPtr) (p n : ℤ) :
      Begins (.tFork f v p) [.enter .tYield, .forked n]
  | joinDone (tid : Tid) : Begins (.tJoin tid) [.ret .void]
  | join (tid : Tid) : Begins (.tJoin tid) [.joined tid]
  | yield : Begins .tYield [.yielded]
  | waitLock (c : CondId) (l : LockId) :
      Begins (.tWait c (some l)) [.enter (.lockRelease l), .waiting c]
  | wait (c : CondId) : Begins (.tWait c none) [.waiting c]
  | sig (c : CondId) (val : AnyPtr) (lock : Option LockId) :
      Begins (.tSig c val lock) [.ret .void]
  | acquire (l : LockId) : Begins (.lockAcquire l) [.spin l]
  | release (l : LockId) : Begins (.lockRelease l) [.released]
  | newLock (l : LockId) : Begins (.lockCreate true) [.ret (.lock l)]
  | newCond (lock : Option LockId) (c : CondId) : Begins (.condCreate lock true) [.ret (.cond c)]
  | newSem (count : ℤ) (i : SemId) : Begins (.semaphoreCreate count true) [.ret (.sem i)]
  | null (op : Op) (hop : NullReturn op) : Begins op []
  | pass (i : SemId) : Begins (.semaphoreP i) [.ret .void]
  | block (i : SemId) : Begins (.semaphoreP i) [.passed]
  | post (i : SemId) : Begins (.semaphoreV i) [.ret .void]
  | destroy (i : SemId) : Begins (.semaphoreDestroy (some i)) [.ret .void]

/-- What comes after a program point of a routine. -/
inductive Becomes : Frame → List Frame → Prop
  | enter (op : Op) (ks : List Frame) (h : Begins op ks) : Becomes (.enter op) ks
  | ret (v : Value) : Becomes (.ret v) []
  | forked (tid : Tid) : Becomes (.forked tid) [.ret (.int tid)]
  | yielded : Becomes .yielded [.ret .void]
  | passed : Becomes .passed [.ret .void]
  | released : Becomes .released [.ret .void]
  | joined (tid : Tid) : Becomes (.joined tid) [.ret .void]
  | waited : Becomes .waited []
  | regain (l : LockId) : Becomes .waited [.spin l]
  | busy (l : LockId) : Becomes (.spin l) [.spin l]
  | free (l : LockId) : Becomes (.spin l) [.spun l]
  | taken (l : LockId) : Becomes (.spun l) [.ret .void]
  | sleep (c : CondId) : Becomes (.waiting c) [.waited]

/-- A step of the library on the stack of one thread. -/
inductive Proceeds : List Frame → List Frame → Prop
  | top (f : Frame) (ks k : List Frame) (h : Becomes f ks) : Proceeds (f :: k) (ks ++ k)
  | epilogue (f f' : Frame) (k : List Frame) (hf : f.phase = .epilogue)
      (hf' : f'.phase = .epilogue) : Proceeds (f :: k) [f']
  | leave (k : List Frame) : Proceeds (.leave :: k) []
  | exit (val : ℤ) (k : List Frame) : Proceeds (.enter (.tExit val) :: k) []

variable {g : Grain} {s s' : State} {m : Move} {t : Tid} {f : Frame} {k ks : List Frame}
  {b : Bool} {es : List Event}

theorem WellShaped.body_below (h : WellShaped (f :: k)) (hf : f.isCall = true) : body k = k := by
  rcases h.below_inner hf with rfl | ⟨tid, -, rfl⟩ | ⟨c, -, rfl⟩ <;> rfl

/-- A frame of a routine is replaced by others on top of those of its callers. -/
theorem Proceeds.pushed {f' : Frame} (hstack : s.stack = f :: k)
    (h : Becomes f (f' :: ks)) : Proceeds s.stack (f' :: ks ++ k) := by
  rw [hstack]
  exact .top f _ k h

/-- A routine returns to its caller. -/
theorem Proceeds.popped (hs : WellShaped s.stack) (hstack : s.stack = f :: k)
    (hf : f.isCall = true) (h : Becomes f []) : Proceeds s.stack (body k) := by
  rw [hstack] at hs ⊢
  rw [hs.body_below hf]
  exact .top f _ k h

theorem Proceeds.unwound {f' : Frame} (hstack : s.stack = f :: k) (hf : f.phase = .epilogue)
    (hf' : f'.phase = .epilogue) : Proceeds s.stack [f'] := by
  rw [hstack]
  exact .epilogue f f' k hf hf'

theorem Control.proceeds (h : Control s .exec k b es) (hs : WellShaped s.stack)
    (hexec : s.Executes .exec) (hstart : ∀ k, s.stack ≠ .start :: k) :
    Proceeds s.stack (body k) := by
  cases h with
  | joinDone tid k hstack => exact .pushed hstack (.enter _ _ (.joinDone tid))
  | waitLock c l k hstack => exact .pushed hstack (.enter _ _ (.waitLock c l))
  | waitNull c k hstack => exact .pushed hstack (.enter _ _ (.wait c))
  | sigNone c val lock k hstack | sigEmpty c val lock k _ hstack =>
    exact .pushed hstack (.enter _ _ (.sig c val lock))
  | acquire l k hstack => exact .pushed hstack (.enter _ _ (.acquire l))
  | nullReturn op k hstack hop => exact .popped hs hstack rfl (.enter _ _ (.null op hop))
  | ret v k hstack => exact .popped hs hstack rfl (.ret v)
  | forked tid k hstack => exact .pushed hstack (.forked tid)
  | enable f k hstack hf =>
    rcases hf with rfl | rfl | rfl
    · exact .pushed hstack .yielded
    · exact .pushed hstack .passed
    · exact .pushed hstack .released
  | joined tid k hstack => exact .pushed hstack (.joined tid)
  | waitedNull k hstack => exact .popped hs hstack rfl .waited
  | waitedLock l k hstack => exact .pushed hstack (.regain l)
  | spinBusy l k v hstack => exact .pushed hstack (.busy l)
  | spinFree l k hstack => exact .pushed hstack (.free l)
  | start k hstack => exact absurd hstack (hstart k)
  | resumed k hstack | handled k hstack => cases (hexec.top hstack).1
  | sitBottom k hstack | idle k hstack => cases (hexec.top hstack).2
  | wakeSkip _ _ _ hstack | wakeHit _ _ _ hstack | wakeEnd _ _ hstack | testHit _ _ _ hstack
  | testMiss _ _ _ hstack | take _ _ _ hstack =>
    exact .unwound hstack rfl rfl

/-- A thread that executes goes on on its own stack. -/
theorem Trans.proceeds (h : Trans g s .exec s') (hr : Regular s) (hexec : s.Executes .exec)
    (hstart : ∀ k, s.stack ≠ .start :: k) :
    Proceeds s.stack (s'.point s.currentRunningThread) := by
  have hon : ∀ {f' : Frame} {ks : List Frame},
      s'.currentRunningThread = s.currentRunningThread → s'.stack = f' :: ks →
      f'.isTimer = false → f'.isSystem = false → Proceeds s.stack (f' :: ks) →
      Proceeds s.stack (s'.point s.currentRunningThread) := by
    intro f' ks hcur hstack hf hf' hgoes
    rwa [← hcur, State.point_current (by rw [hstack]; exact body_own_ne_nil hf hf'), hstack,
      body_own hf hf']
  have hoff : ∀ {ks : List Frame}, body s'.stack = [] →
      body ((s'.tcb s.currentRunningThread).context.getD []) = ks → Proceeds s.stack ks →
      Proceeds s.stack (s'.point s.currentRunningThread) := by
    intro ks hnil hcontext hgoes
    rwa [State.point_of_nil hnil, hcontext]
  cases h with
  | control m k b es h =>
    have hne : body k ≠ [] := fun hnil =>
      hexec.own.2 (hexec.own.1.symm.trans (h.body_nil hr.shaped.stack hnil).1)
    have hgoes := h.proceeds hr.shaped.stack hexec hstart
    exact (State.point_current (s := { s with stack := k }) hne).symm ▸ hgoes
  | suspend q f k next store h =>
    cases h with
    | yield _ hstack =>
      exact hoff rfl (by simp [body]; rfl) (.pushed hstack (.enter _ _ .yield))
    | timer _ hstack => cases (hexec.top hstack).1
    | wait c _ hstack => exact hoff rfl (by simp [body]; rfl) (.pushed hstack (.sleep c))
    | pass i v _ hstack =>
      exact hoff rfl (by simp [body]; rfl) (.pushed hstack (.enter _ _ (.block i)))
  | fork f v p k k' b store hstack _ _ caller _ hk =>
    rcases hk with ⟨-, rfl, -⟩ | ⟨-, rfl, -⟩
    · exact hon rfl rfl rfl rfl (.pushed hstack (.enter _ _ (.forkYield f v p _)))
    · exact hon rfl rfl rfl rfl (.pushed hstack (.enter _ _ (.fork f v p _)))
  | join tid k slot hstack =>
    exact hoff rfl (by simp [body]; rfl) (.pushed hstack (.enter _ _ (.join tid)))
  | unlock l k v hstack => exact hon rfl rfl rfl rfl (.pushed hstack (.enter _ _ (.release l)))
  | lock l k v hstack => exact hon rfl rfl rfl rfl (.pushed hstack (.taken l))
  | sigWake c val lock k i u store store' hstack =>
    exact hon rfl rfl rfl rfl (.pushed hstack (.enter _ _ (.sig c val lock)))
  | semWake i k v u store store' hstack =>
    exact hon rfl rfl rfl rfl (.pushed hstack (.enter _ _ (.post i)))
  | semValue op i k v v' hstack _ hop =>
    rcases hop with ⟨rfl, -⟩ | ⟨rfl, -⟩
    · exact hon rfl rfl rfl rfl (.pushed hstack (.enter _ _ (.pass i)))
    · exact hon rfl rfl rfl rfl (.pushed hstack (.enter _ _ (.post i)))
  | semFree i k v hstack => exact hon rfl rfl rfl rfl (.pushed hstack (.enter _ _ (.destroy i)))
  | newLock k hstack => exact hon rfl rfl rfl rfl (.pushed hstack (.enter _ _ (.newLock _)))
  | newCond lock k hstack =>
    exact hon rfl rfl rfl rfl (.pushed hstack (.enter _ _ (.newCond lock _)))
  | newSem count k hstack =>
    exact hon rfl rfl rfl rfl (.pushed hstack (.enter _ _ (.newSem count _)))
  | exit val k hstack =>
    have hends : Proceeds s.stack [] := hstack ▸ .exit val k
    exact hoff rfl (by simp [body]) hends
  | leave k hstack =>
    have hends : Proceeds s.stack [] := hstack ▸ .leave k
    exact hoff rfl (by simp [body]) hends
  | record _ _ hstack | insertWhole _ _ _ _ _ hstack | insertCall _ _ _ _ _ _ hstack
  | inserting _ _ _ _ _ _ _ _ _ hstack | inserted _ _ _ _ _ _ _ hstack
  | counted _ _ _ _ _ _ hstack =>
    exact hon rfl rfl rfl rfl (.unwound hstack rfl rfl)
  | dispatchNew _ _ _ _ hstack | dispatchOld _ _ _ _ _ hstack => cases (hexec.top hstack).2

variable {G L : Type} {P : Program G L} {w w' w₀ : World G L} {tick : Tick}

/-- A step of a thread: a statement of its body, a call or the return from its function, or a
step of the library. The shared variables have some value. -/
inductive Solo (P : Program G L) : List Frame × L → List Frame × L → Prop
  | act (shared shared' : G) (place next : L) (hcode : P.code shared place = .act shared' next) :
      Solo P ([.user], place) ([.user], next)
  | call (shared : G) (op : Op) (place next : L) (hcode : P.code shared place = .call op next) :
      Solo P ([.user], place) ([.enter op, .user], next)
  | ret (shared : G) (place : L) (hcode : P.code shared place = .ret) :
      Solo P ([.user], place) ([.wake 0 false], place)
  | library (k k' : List Frame) (place : L) (h : Proceeds k k') : Solo P (k, place) (k', place)

/-- The stack of a thread and its place in the program. -/
def World.thread (w : World G L) (t : Tid) : List Frame × L := (w.sys.point t, w.threads t)

/-- A thread that has entered its function is not about to enter one. -/
theorem Lives.not_start (hl : Lives s) (ht : entries s.currentRunningThread s.hist ≠ []) :
    ∀ k, s.stack ≠ .start :: k := by
  intro k hstack
  have hpoint := point_own hstack rfl rfl
  refine ht (hl.starts.newborn _ (Or.inr ?_)).1
  rw [hpoint]
  exact List.mem_cons_self ..

/-- Calls of other threads leave a thread where it is. -/
theorem launch_kept (hl : Lives w.sys) (ht : entries t w.sys.hist ≠ []) :
    P.launch w.sys w.threads t = w.threads t := by
  have hlaunch := P.launches w.sys w.threads
  generalize P.launch w.sys w.threads = threads at hlaunch ⊢
  cases hlaunch with
  | fork =>
    refine Function.update_of_ne ?_ ..
    rintro rfl
    exact absurd (hl.starts.le_gThreadID ht) (not_le_of_gt (lt_next _))
  | start k hstack =>
    refine Function.update_of_ne ?_ ..
    rintro rfl
    exact hl.not_start ht k hstack
  | same => rfl

/-- A step of its own: it goes on from where it is on its stack and in the program. -/
theorem Goes.solo_current (h : Goes g P w tick w') (hl : Lives w.sys)
    (ht : entries w.sys.currentRunningThread w.sys.hist ≠ []) :
    w'.thread w.sys.currentRunningThread = w.thread w.sys.currentRunningThread ∨
      Solo P (w.thread w.sys.currentRunningThread) (w'.thread w.sys.currentRunningThread) := by
  have huser : w.sys.stack = [.user] → w.thread w.sys.currentRunningThread =
      ([.user], w.threads w.sys.currentRunningThread) :=
    fun hstack => Prod.ext (point_own hstack rfl rfl) rfl
  cases h with
  | expire s hstep =>
    exact Or.inl (Prod.ext ((step_trans hstep).point_kept hl.regular hl.starts ht
      fun _ hexec => hexec.1 rfl) rfl)
  | act shared next hstack hcode =>
    rw [huser hstack]
    have hnext : World.thread { w with
        shared := shared
        threads := Function.update w.threads w.sys.currentRunningThread next }
        w.sys.currentRunningThread = ([.user], next) :=
      Prod.ext (point_own hstack rfl rfl) (Function.update_self ..)
    exact Or.inr (hnext ▸ .act _ _ _ _ hcode)
  | call op next s hstack hcode hstep =>
    rw [huser hstack]
    have hnext : World.thread { w with
        sys := s
        threads := Function.update w.threads w.sys.currentRunningThread next }
        w.sys.currentRunningThread = ([.enter op, .user], next) := by
      refine Prod.ext ?_ (Function.update_self ..)
      simp only [step, hstack, if_true, Option.some.injEq] at hstep
      subst hstep
      exact point_own (s := w.sys.goto [.enter op, .user]) rfl rfl rfl
    exact Or.inr (hnext ▸ .call _ _ _ _ hcode)
  | ret s hstack hcode hstep =>
    rw [huser hstack]
    have hnext : World.thread { w with sys := s } w.sys.currentRunningThread =
        ([.wake 0 false], w.threads w.sys.currentRunningThread) := by
      refine Prod.ext ?_ rfl
      simp only [step, hstack, if_true, Option.some.injEq] at hstep
      subst hstep
      exact point_own (s := (w.sys.log (.ended w.sys.currentRunningThread)).goto [.wake 0 false])
        rfl rfl rfl
    exact Or.inr (hnext ▸ .ret _ _ hcode)
  | exec s hstack hstep =>
    by_cases hexec : w.sys.Executes .exec
    · refine Or.inr ?_
      have hplace : P.launch w.sys w.threads w.sys.currentRunningThread = _ := launch_kept hl ht
      simp only [World.thread, hplace, hexec.point]
      exact .library _ _ _ ((step_trans hstep).proceeds hl.regular hexec (hl.not_start ht))
    · exact Or.inl (Prod.ext ((step_trans hstep).point_kept hl.regular hl.starts ht
        fun _ => hexec) (launch_kept hl ht))

/-- A step of another thread leaves a thread where it is. -/
theorem Goes.solo_other (h : Goes g P w tick w') (hl : Lives w.sys)
    (ht : entries t w.sys.hist ≠ []) (hcur : t ≠ w.sys.currentRunningThread) :
    w'.thread t = w.thread t := by
  have hkept : ∀ {m : Move} {s : State}, step g m w.sys = some s → s.point t = w.sys.point t :=
    fun hstep => (step_trans hstep).point_kept hl.regular hl.starts ht fun heq => absurd heq hcur
  cases h with
  | expire s hstep | ret s _ _ hstep => exact Prod.ext (hkept hstep) rfl
  | act => exact Prod.ext rfl (Function.update_of_ne hcur ..)
  | call op next s _ _ hstep => exact Prod.ext (hkept hstep) (Function.update_of_ne hcur ..)
  | exec s _ hstep => exact Prod.ext (hkept hstep) (launch_kept hl ht)

/-- No thread enters a function, or the running thread does and is at the beginning of it. -/
theorem Goes.entered (h : Goes g P w tick w') :
    (∀ t, entries t w'.sys.hist = entries t w.sys.hist) ∨
      ∃ k f v, w.sys.stack = .start :: k ∧
        w'.sys.hist = .entered w.sys.currentRunningThread f v :: w.sys.hist ∧
        w'.thread w.sys.currentRunningThread = ([.user], P.body f v) := by
  rcases h.sys with hsys | ⟨m, hstep, hthreads⟩
  · exact Or.inl fun t => by rw [hsys]
  · cases (step_trans hstep).startMove with
    | none _ _ _ _ hentries => exact Or.inl hentries
    | fork f v p k hstack _ _ _ hhist => exact Or.inl fun t => by simp [hhist, entries]
    | start t y k hstack _ _ _ _ hhist => exact Or.inl fun t => by simp [hhist, entries]
    | enter k hstack hstack' _ _ _ hhist =>
      refine Or.inr ⟨k, _, _, hstack, hhist, Prod.ext ?_ ?_⟩
      · change w'.sys.point _ = _
        rw [step_start hstack hstep]
        exact point_own rfl rfl rfl
      · change w'.threads _ = _
        rw [hthreads rfl]
        simp [Program.launch, hstack]

/-- Every thread that has entered its function has got where it is by steps of its own. -/
def Alone (P : Program G L) (w : World G L) : Prop :=
  ∀ t, entries t w.sys.hist ≠ [] → ∃ f v, entries t w.sys.hist = [(f, v)] ∧
    ReflTransGen (Solo P) ([.user], P.body f v) (w.thread t)

theorem Goes.alone (h : Goes g P w tick w') (hl : Lives w.sys) (ha : Alone P w) :
    Alone P w' := by
  have hold : ∀ t, entries t w.sys.hist ≠ [] →
      entries t w'.sys.hist = entries t w.sys.hist → ∃ f v, entries t w'.sys.hist = [(f, v)] ∧
      ReflTransGen (Solo P) ([.user], P.body f v) (w'.thread t) := by
    intro t ht hsame
    obtain ⟨f, v, hentries, hrun⟩ := ha t ht
    refine ⟨f, v, hsame.trans hentries, ?_⟩
    by_cases hcur : t = w.sys.currentRunningThread
    · subst hcur
      rcases h.solo_current hl ht with hstays | hsolo
      · exact hstays ▸ hrun
      · exact hrun.tail hsolo
    · exact h.solo_other hl ht hcur ▸ hrun
  intro t ht'
  rcases h.entered with hsame | ⟨k, f, v, hstack, hhist, hthread⟩
  · exact hold t (hsame t ▸ ht') (hsame t)
  · by_cases hcur : t = w.sys.currentRunningThread
    · subst hcur
      have hnone : entries w.sys.currentRunningThread w.sys.hist = [] :=
        by_contra fun ht => hl.not_start ht k hstack
      exact ⟨f, v, by simp [hhist, entries, hnone], hthread ▸ .refl⟩
    · have hsame : entries t w'.sys.hist = entries t w.sys.hist := by
        simp [hhist, entries, Ne.symm hcur]
      exact hold t (hsame ▸ ht') hsame

/-- No step starts a fiftieth thread. -/
def StartsFew (g : Grain) (P : Program G L) (tick : Tick) (w : World G L) : Prop :=
  (w.step g P tick).all (fun w' => w'.sys.threadCount ≤ 49) = true

instance (tick : Tick) (w : World G L) : Decidable (StartsFew g P tick w) :=
  inferInstanceAs (Decidable (_ = true))

/-- As long as no two stacks overlap, and the epilogue of `incrementStack` is spared, a thread
that has entered its function has done so once and has come to where it is by the statements of
its body one after the other, and the routines that it called have returned to it. -/
theorem threads_run_their_code {calls : List MainCall} {shared : G}
    (h₀ : World.Opens P calls shared w₀)
    (hrun : Run (World.step g P) (fun tick w => SparesEpilogue tick w ∧ StartsFew g P tick w) w₀ w)
    (ht : entries t w.sys.hist ≠ []) : ∃ f v, entries t w.sys.hist = [(f, v)] ∧
      ReflTransGen (Solo P) ([.user], P.body f v) (w.sys.point t, w.threads t) := by
  have hstart : Run (step g) AnyTiming w₀.sys w₀.sys := .refl _
  have hall : (Lives w.sys ∧ QueuesOk WaitQueues w.sys) ∧ Alone P w := by
    refine hrun.invariant (I := fun a => (Lives a.sys ∧ QueuesOk WaitQueues a.sys) ∧ Alone P a)
      ⟨lives_of_run h₀.initial hstart, fun u hu => ?_⟩ ?_
    · obtain ⟨f, v, p, hb⟩ := h₀.initial.begun
      exact absurd (by simp [hb.hist, entries]) hu
    · intro tick a b hI _ hstep
      have hgoes := World.goes hstep
      refine ⟨?_, hgoes.alone hI.1.1 hI.2⟩
      rcases hgoes.sys with hsys | ⟨m, hmove, -⟩
      · exact hsys ▸ hI.1
      · exact Lives.step hI.1 hmove
  exact hall.2 t ht

/-- The second worker has found no permit, and waits inside `Semaphore_P`. -/
theorem threads_run_their_code_waiting :
    ∃ w₀ w : World Unit Spot, World.Opens workers [.lock, .sem 1] () w₀ ∧
      w.sys.point 3 = [.passed, .user] ∧ w.threads 3 = .acquire ∧
      ReflTransGen (Solo workers) ([.user], .enter) (w.sys.point 3, w.threads 3) := by
  obtain ⟨w₀, w, h₀, hrun, hgood⟩ := exists_world .statement
    (fun tick w => SparesEpilogue tick w ∧ StartsFew .statement workers tick w) workers
    [.lock, .sem 1] () 127 (List.replicate 67 .run ++ [.expire] ++ List.replicate 8 .run)
    (fun w => entries 3 w.sys.hist = [(1, .null)] && w.sys.point 3 = [.passed, .user] &&
      w.threads 3 = .acquire) (by decide +kernel)
  simp only [Bool.and_eq_true, decide_eq_true_eq] at hgood
  obtain ⟨⟨hentries, hpoint⟩, hplace⟩ := hgood
  have hentered : entries 3 w.sys.hist ≠ [] := by simp [hentries]
  obtain ⟨f, v, hsame, hsolo⟩ := threads_run_their_code h₀ hrun hentered
  cases hentries.symm.trans hsame
  exact ⟨w₀, w, h₀, hpoint, hplace, hsolo⟩

end UserThreads.Threads
