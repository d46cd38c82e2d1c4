import UserThreads.Masking

/-!
Where each thread is. The point of a thread is its stack without timer frames:
the processor's stack while the thread runs, and its saved context otherwise.
The timer never changes the point of a thread, and no other thread does; only
the thread's own steps, its start and its creation do.
-/
namespace UserThreads.Threads

open LinkedCells Queue Runs

/-- The frames at which no thread is left on the stack. -/
def Frame.isSystem : Frame → Bool
  | .sitBottom | .sched | .done => true
  | _ => false

/-- What a stack holds of a thread, its timer frames removed. -/
def body : List Frame → List Frame
  | [] => []
  | f :: k => if f.isTimer then body k else if f.isSystem then [] else f :: k

namespace State

/-- The program point of a thread and the frames below it. -/
def point (s : State) (t : Tid) : List Frame :=
  if t = s.currentRunningThread ∧ body s.stack ≠ [] then body s.stack
  else body ((s.tcb t).context.getD [])

/-- The running thread executes code of its own or of a routine it called. -/
def Executes (s : State) (m : Move) : Prop :=
  m ≠ .expire ∧ ∃ f k, s.stack = f :: k ∧ f.isTimer = false ∧ f.isSystem = false

/-- The move starts the thread. -/
structure Starts (s s' : State) (t : Tid) : Prop where
  flag : (s.tcb t).flag = 1
  cleared : (s'.tcb t).flag = 0
  hist : s'.hist.head? = some (.started t)

end State

/-- When no thread is left on the stack, either the last one has been suspended
and SIGVTALRM is blocked, or its context is dead. -/
def Parked (s : State) : Prop :=
  body s.stack = [] →
    (s.blocked = true ∧ ∃ f : Frame, f.isSystem = true ∧ s.stack = [f]) ∨
      body (s.current.context.getD []) = []

variable {g : Grain} {s s' : State} {m : Move} {k : List Frame} {f : Frame} {b : Bool}
  {es : List Event} {t : Tid}

theorem body_timer (hf : f.isTimer = true) : body (f :: k) = body k := by
  simp [body, hf]

@[simp] theorem body_resumed : body (.resumed :: k) = body k := body_timer rfl

theorem body_own (hf : f.isTimer = false) (hf' : f.isSystem = false) : body (f :: k) = f :: k := by
  simp [body, hf, hf']

theorem body_own_ne_nil (hf : f.isTimer = false) (hf' : f.isSystem = false) :
    body (f :: k) ≠ [] := by
  rw [body_own hf hf']
  exact List.cons_ne_nil f k

theorem State.point_of_ne (h : t ≠ s.currentRunningThread) :
    s.point t = body ((s.tcb t).context.getD []) := by
  simp [point, h]

theorem State.point_of_nil (h : body s.stack = []) :
    s.point t = body ((s.tcb t).context.getD []) := by
  simp [point, h]

theorem State.point_current (h : body s.stack ≠ []) :
    s.point s.currentRunningThread = body s.stack := by
  simp [point, h]

theorem State.point_congr (hcur : s'.currentRunningThread = s.currentRunningThread)
    (hcontext : (s'.tcb t).context = (s.tcb t).context)
    (hbody : t ≠ s.currentRunningThread ∨ body s'.stack = body s.stack) :
    s'.point t = s.point t := by
  rcases hbody with ht | hbody
  · rw [point_of_ne ht, point_of_ne (hcur ▸ ht), hcontext]
  · simp only [point, hcur, hbody, hcontext]

/-- Below a frame of a routine there are only the frames of its callers. -/
theorem WellShaped.below_mem (h : WellShaped (f :: k)) (hf : f.isTimer = false) {f' : Frame}
    (hmem : f' ∈ k) : f' = .user ∨ (∃ tid, f' = .forked tid) ∨ ∃ c, f' = .waiting c := by
  cases h with
  | base => cases hmem
  | call => exact Or.inl (List.mem_singleton.mp hmem)
  | fork =>
    rcases List.mem_cons.mp hmem with rfl | hmem
    · exact Or.inr (Or.inl ⟨_, rfl⟩)
    · exact Or.inl (List.mem_singleton.mp hmem)
  | wait =>
    rcases List.mem_cons.mp hmem with rfl | hmem
    · exact Or.inr (Or.inr ⟨_, rfl⟩)
    · exact Or.inl (List.mem_singleton.mp hmem)
  | timer ht => simp [hf] at ht

/-- What a routine returns to belongs to a thread. -/
theorem WellShaped.body_tail (h : WellShaped (f :: k)) (hf : f.isCall = true) : body k ≠ [] := by
  rcases h.below_inner hf with rfl | ⟨tid, -, rfl⟩ | ⟨c, -, rfl⟩ <;>
    simp [body, Frame.isTimer, Frame.isSystem]

/-- What a control move does to the stack of the running thread: nothing that
is not a timer frame, or the thread executes. -/
theorem Control.body_eq (h : Control s m k b es) :
    body k = body s.stack ∨ s.Executes m := by
  cases h with
  | expire => exact Or.inl (body_timer rfl)
  | call op hstack | finish hstack =>
    exact Or.inr ⟨by simp, _, _, hstack, rfl, rfl⟩
  | resumed _ hstack | handled _ hstack | sitBottom _ hstack | idle _ hstack =>
    rw [hstack]
    exact Or.inl rfl
  | enable f' k hstack hf =>
    rcases hf with rfl | rfl | rfl <;> exact Or.inr ⟨by simp, _, _, hstack, rfl, rfl⟩
  | joinDone _ _ hstack | waitLock _ _ _ hstack | waitNull _ _ hstack | sigNone _ _ _ _ hstack
  | sigEmpty _ _ _ _ _ hstack | acquire _ _ hstack | nullReturn _ _ hstack | ret _ _ hstack
  | forked _ _ hstack | joined _ _ hstack | waitedNull _ hstack | waitedLock _ _ hstack
  | spinBusy _ _ _ hstack | spinFree _ _ hstack | start _ hstack | wakeSkip _ _ _ hstack
  | wakeHit _ _ _ hstack | wakeEnd _ _ hstack | testHit _ _ _ hstack | testMiss _ _ _ hstack
  | take _ _ _ hstack =>
    exact Or.inr ⟨by simp, _, _, hstack, rfl, rfl⟩

theorem context_update {u : Tid} {c : Tcb} (h : t ≠ u) :
    (Function.update s.tcb u c t).context = (s.tcb t).context := by
  rw [Function.update_of_ne h]

/-- The point of a thread changes only when the thread executes, is started or
is created. -/
theorem Trans.point (h : Trans g s m s') (hp : Parked s) (t : Tid) :
    s'.point t = s.point t ∨ t = s.currentRunningThread ∧ s.Executes m ∨
      s.Starts s' t ∧ s'.point t = [.start] ∨ t = s.gThreadID + 1 ∧ s'.point t = [] := by
  have hown : ∀ {f : Frame} {k : List Frame} {s' : State}, s.stack = f :: k →
      f.isTimer = false → f.isSystem = false → m ≠ .expire →
      s'.currentRunningThread = s.currentRunningThread →
      (t ≠ s.currentRunningThread → (s'.tcb t).context = (s.tcb t).context) →
      s'.point t = s.point t ∨ t = s.currentRunningThread ∧ s.Executes m := by
    intro f k s' hstack hf hf' hm hcur hcontext
    by_cases ht : t = s.currentRunningThread
    · exact Or.inr ⟨ht, hm, f, k, hstack, hf, hf'⟩
    · exact Or.inl (State.point_congr hcur (hcontext ht) (Or.inl ht))
  have hweak : ∀ {s' : State}, s'.point t = s.point t ∨ t = s.currentRunningThread ∧ s.Executes m →
      s'.point t = s.point t ∨ t = s.currentRunningThread ∧ s.Executes m ∨
      s.Starts s' t ∧ s'.point t = [.start] ∨ t = s.gThreadID + 1 ∧ s'.point t = [] :=
    fun h => h.imp_right Or.inl
  cases h with
  | control m k b es h =>
    apply hweak
    rcases h.body_eq with hbody | hexec
    · exact Or.inl (State.point_congr rfl rfl (Or.inr hbody))
    · by_cases ht : t = s.currentRunningThread
      · exact Or.inr ⟨ht, hexec⟩
      · exact Or.inl (State.point_congr rfl rfl (Or.inl ht))
  | suspend q f k next store h =>
    cases h with
    | yield _ hstack | wait _ _ hstack | pass _ _ _ hstack =>
      exact hweak (hown hstack rfl rfl (by simp) rfl context_update)
    | timer k hstack =>
      left
      by_cases ht : t = s.currentRunningThread
      · subst ht
        rw [State.point_of_nil (by rfl)]
        have hbody : body s.stack = body k := by rw [hstack]; rfl
        by_cases hnil : body k = []
        · rw [State.point_of_nil (hbody.trans hnil)]
          rcases hp (hbody.trans hnil) with ⟨-, f, hf, hsys⟩ | hdead
          · rw [hstack] at hsys
            cases hsys
            cases hf
          · rw [show body ((s.tcb s.currentRunningThread).context.getD []) = [] from hdead]
            simpa using hnil
        · rw [State.point_current (hbody ▸ hnil), hbody]
          simp
      · exact State.point_of_nil rfl |>.trans
          ((congrArg (fun c => body (Option.getD c [])) (context_update ht)).trans
            (State.point_of_ne ht).symm)
  | fork f v p k k' b store hstack =>
    by_cases ht : t = s.gThreadID + 1
    · by_cases hcur : t = s.currentRunningThread
      · exact Or.inr (Or.inl ⟨hcur, by simp, _, _, hstack, rfl, rfl⟩)
      · refine Or.inr (Or.inr (Or.inr ⟨ht, ?_⟩))
        rw [State.point_of_ne (by exact hcur), ht]
        simp [body]
    · exact hweak (hown hstack rfl rfl (by simp) rfl fun _ => context_update ht)
  | join tid k slot hstack | exit val k hstack | leave k hstack =>
    exact hweak (hown hstack rfl rfl (by simp) rfl context_update)
  | sigWake c val lock k i u store store' hstack =>
    refine hweak (hown hstack rfl rfl (by simp) rfl fun _ => ?_)
    by_cases hu : t = u
    · subst hu
      simp only [Function.update_self]
    · exact context_update hu
  | semValue op i k v v' hstack _ hop =>
    rcases hop with ⟨rfl, -⟩ | ⟨rfl, -⟩ <;>
      exact hweak (hown hstack rfl rfl (by simp) rfl fun _ => rfl)
  | unlock _ _ _ hstack | lock _ _ _ hstack | semWake _ _ _ _ _ _ hstack | semFree _ _ _ hstack
  | newLock _ hstack | newCond _ _ hstack | newSem _ _ hstack | record _ _ hstack
  | insertWhole _ _ _ _ _ hstack | insertCall _ _ _ _ _ _ hstack
  | inserting _ _ _ _ _ _ _ _ _ hstack | inserted _ _ _ _ _ _ _ hstack
  | counted _ _ _ _ _ _ hstack =>
    exact hweak (hown hstack rfl rfl (by simp) rfl fun _ => rfl)
  | dispatchNew y u k store hstack _ _ _ hflag =>
    by_cases ht : t = u
    · subst ht
      exact Or.inr (Or.inr (Or.inl ⟨⟨hflag, by simp, rfl⟩, by simp [State.point, body,
        Frame.isTimer, Frame.isSystem]⟩))
    · left
      rw [State.point_of_ne (by exact ht), State.point_of_nil (by rw [hstack]; rfl)]
      exact congrArg (fun c => body (Option.getD c [])) (context_update ht)
  | dispatchOld y u k k' store hstack _ _ _ _ hcontext =>
    left
    rw [State.point_of_nil (s := s) (by rw [hstack]; rfl)]
    by_cases ht : t = u
    · subst ht
      by_cases hnil : body k' = []
      · exact State.point_of_nil hnil
      · exact (State.point_current hnil).trans (by rw [hcontext]; rfl)
    · exact State.point_of_ne ht

/-- When a control move leaves no thread on the stack there was none before, and
SIGVTALRM is blocked now or was not before. -/
theorem Control.body_nil (h : Control s m k b es) (hs : WellShaped s.stack) (hk : body k = []) :
    body s.stack = [] ∧ ((b = true ∧ ∃ f : Frame, f.isSystem = true ∧ k = [f]) ∨
      ∀ f, f.isSystem = true → s.blocked = true → s.stack ≠ [f]) := by
  cases h with
  | expire hmask _ =>
    refine ⟨hk, Or.inr fun f _ hblocked => ?_⟩
    rw [hmask] at hblocked
    cases hblocked
  | resumed k hstack | handled k hstack =>
    refine ⟨by rw [hstack]; exact hk, Or.inr fun f hf _ heq => ?_⟩
    rw [hstack] at heq
    cases heq
    cases hf
  | sitBottom _ hstack | idle _ hstack =>
    exact ⟨by rw [hstack]; rfl, Or.inl ⟨rfl, _, rfl, rfl⟩⟩
  | nullReturn _ _ hstack | ret _ _ hstack | waitedNull _ hstack =>
    rw [hstack] at hs
    exact absurd hk (hs.body_tail rfl)
  | _ => exact absurd hk (body_own_ne_nil rfl rfl)

theorem Trans.parked (h : Trans g s m s') (hs : Shaped s) (hp : Parked s) : Parked s' := by
  intro hnil
  cases h with
  | control m k b es h =>
    obtain ⟨hnil', hblocked | hnot⟩ := h.body_nil hs.stack hnil
    · exact Or.inl hblocked
    · rcases hp hnil' with ⟨hmask, f, hf, hstack⟩ | hdead
      · exact absurd hstack (hnot f hf hmask)
      · exact Or.inr hdead
  | suspend q f k next store h => cases h <;> exact Or.inl ⟨rfl, _, rfl, rfl⟩
  | join => exact Or.inl ⟨rfl, _, rfl, rfl⟩
  | fork _ _ _ _ _ _ _ _ _ _ _ _ hk =>
    rcases hk with ⟨-, rfl, -⟩ | ⟨-, rfl, -⟩ <;> exact absurd hnil (body_own_ne_nil rfl rfl)
  | exit | leave => exact Or.inr (by simp [State.current, body])
  | dispatchOld y t k k' store _ _ _ _ _ hcontext =>
    exact Or.inr ((congrArg (fun c => body (c.getD [])) hcontext).trans hnil)
  | _ => exact absurd hnil (body_own_ne_nil rfl rfl)

theorem Initial.parked (h : Initial s) : Parked s := by
  obtain ⟨a, f, v, p, store, ha, -, -, rfl⟩ := h.spec
  exact fun _ => Or.inl ⟨rfl, _, rfl, rfl⟩

/-- The invariants about stacks, contexts and the mask together. -/
structure Regular (s : State) : Prop where
  shaped : Shaped s
  mask : MaskOk s
  parked : Parked s

theorem Trans.regular (h : Trans g s m s') (hr : Regular s) : Regular s' where
  shaped := h.shaped hr.shaped
  mask := h.maskOk hr.shaped hr.mask
  parked := h.parked hr.shaped hr.parked

theorem Initial.regular (h : Initial s) : Regular s := ⟨h.shaped, h.maskOk, h.parked⟩

theorem Initial.point (h : Initial s) (t : Tid) : s.point t = [] := by
  obtain ⟨f, v, p, hb⟩ := h.begun
  rw [State.point_of_nil (by rw [hb.stack]; rfl), hb.tcb]
  by_cases ht : t = 1
  · subst ht
    rfl
  · rw [Function.update_of_ne ht]
    rfl

theorem State.Executes.own (h : s.Executes m) : body s.stack = s.stack ∧ s.stack ≠ [] := by
  obtain ⟨-, f, k, hstack, hf, hf'⟩ := h
  rw [hstack]
  exact ⟨body_own hf hf', List.cons_ne_nil f k⟩

/-- What executes is neither the timer nor the system's own code. -/
theorem State.Executes.top (h : s.Executes m) (hstack : s.stack = f :: k) :
    f.isTimer = false ∧ f.isSystem = false := by
  obtain ⟨-, f', k', htop, hf, hf'⟩ := h
  cases hstack.symm.trans htop
  exact ⟨hf, hf'⟩

/-- An executing thread is at the top of the stack. -/
theorem State.Executes.point (h : s.Executes m) : s.point s.currentRunningThread = s.stack := by
  obtain ⟨hown, hne⟩ := h.own
  rw [State.point_current (by rwa [hown]), hown]

theorem body_subset (hf : f ∈ body k) : f ∈ k := by
  induction k with
  | nil => exact hf
  | cons f' k ih =>
    simp only [body] at hf
    split_ifs at hf
    · exact List.mem_cons_of_mem _ (ih hf)
    · cases hf
    · exact hf

/-- A frame of the point of a thread is on the stack or in its context. -/
theorem State.mem_point (hf : f ∈ s.point t) :
    t = s.currentRunningThread ∧ f ∈ s.stack ∨
      ((t = s.currentRunningThread → body s.stack = []) ∧
        ∃ k, (s.tcb t).context = some k ∧ f ∈ k) := by
  rw [State.point] at hf
  split_ifs at hf with h
  · exact Or.inl ⟨h.1, body_subset hf⟩
  · refine Or.inr ⟨fun ht => by_contra fun hne => h ⟨ht, hne⟩, ?_⟩
    cases hcontext : (s.tcb t).context with
    | none => simp [hcontext, body] at hf
    | some k => exact ⟨k, rfl, body_subset (by simpa [hcontext] using hf)⟩

/-- How a frame comes to be in the point of a thread that executes: it was below
the top, or it is new; for the frames named here the step is then known. -/
inductive Arrives (s : State) : Frame → Prop
  | below (f : Frame) (hf : f ∈ s.stack.tail) : Arrives s f
  | spun (l : LockId) (k : List Frame) (hstack : s.stack = .spin l :: k)
      (hshared : s.shared l = some 0) : Arrives s (.spun l)
  | waiting (c : CondId) (lock : Option LockId) (k : List Frame)
      (hstack : s.stack = .enter (.tWait c lock) :: k) : Arrives s (.waiting c)
  | other (f : Frame) (hspun : ∀ l, f ≠ .spun l) (hwaiting : ∀ c, f ≠ .waiting c)
      (hstart : f ≠ .start) : Arrives s f

/-- A frame that replaces the top. -/
theorem Arrives.push {f' : Frame} (hstack : s.stack = f' :: k) {f'' : Frame} (hf : f ∈ f'' :: k)
    (hspun : ∀ l, f'' ≠ .spun l) (hwaiting : ∀ c, f'' ≠ .waiting c) (hstart : f'' ≠ .start) :
    Arrives s f := by
  rcases List.mem_cons.mp hf with rfl | hf
  · exact .other _ hspun hwaiting hstart
  · exact .below f (by simpa [hstack] using hf)

theorem Control.arrives (h : Control s m k b es) (hexec : s.Executes m) (hf : f ∈ k) :
    Arrives s f := by
  cases h with
  | expire => exact absurd rfl hexec.1
  | nullReturn _ _ hstack | ret _ _ hstack | waitedNull _ hstack | handled _ hstack =>
    exact .below f (by simpa [hstack] using hf)
  | joinDone _ _ hstack | sigNone _ _ _ _ hstack | sigEmpty _ _ _ _ _ hstack
  | acquire _ _ hstack | forked _ _ hstack | enable _ _ hstack | joined _ _ hstack
  | waitedLock _ _ hstack | spinBusy _ _ _ hstack | resumed _ hstack =>
    exact Arrives.push hstack hf (by simp) (by simp) (by simp)
  | waitLock c l k hstack =>
    rcases List.mem_cons.mp hf with rfl | hf
    · exact .other _ (by simp) (by simp) (by simp)
    rcases List.mem_cons.mp hf with rfl | hf
    · exact .waiting c _ k hstack
    · exact .below f (by simpa [hstack] using hf)
  | waitNull c k hstack =>
    rcases List.mem_cons.mp hf with rfl | hf
    · exact .waiting c _ k hstack
    · exact .below f (by simpa [hstack] using hf)
  | spinFree l k hstack hshared =>
    rcases List.mem_cons.mp hf with rfl | hf
    · exact .spun l k hstack hshared
    · exact .below f (by simpa [hstack] using hf)
  | call op hstack =>
    simp only [List.mem_cons, List.not_mem_nil, or_false] at hf
    rcases hf with rfl | rfl <;> exact .other _ (by simp) (by simp) (by simp)
  | finish | start | wakeSkip | wakeHit | wakeEnd | testHit | testMiss | take | sitBottom
  | idle =>
    rw [List.mem_singleton.mp hf]
    exact .other _ (by simp) (by simp) (by simp)

/-- The frames in the point of a thread after a step of its own. -/
theorem Trans.arrives (h : Trans g s m s') (hr : Regular s) (hexec : s.Executes m)
    (hf : f ∈ s'.point s.currentRunningThread) : Arrives s f := by
  have hsystem : ∀ {f' : Frame} {k : List Frame}, s.stack = f' :: k → f'.isSystem ≠ true := by
    intro f' k hstack hf'
    obtain ⟨-, f₁, k₁, hstack₁, -, hf₁⟩ := hexec
    rw [hstack] at hstack₁
    cases hstack₁
    rw [hf'] at hf₁
    cases hf₁
  cases h with
  | control m k b es h =>
    rcases State.mem_point hf with ⟨-, hf⟩ | ⟨hnil, -⟩
    · exact h.arrives hexec hf
    · obtain ⟨hown, hne⟩ := hexec.own
      rw [(h.body_nil hr.shaped.stack (hnil rfl)).1] at hown
      exact absurd hown.symm hne
  | suspend q f' k next store h =>
    rcases State.mem_point hf with ⟨-, hf⟩ | ⟨-, k', hk', hf⟩
    · rw [List.mem_singleton.mp hf]
      cases h <;> exact .other _ (by simp) (by simp) (by simp)
    · simp only [Function.update_self, Option.some.injEq] at hk'
      subst hk'
      obtain ⟨_, hstack⟩ := h.stack
      refine Arrives.push hstack hf ?_ ?_ ?_ <;> cases h <;> simp
  | join tid k slot hstack =>
    rcases State.mem_point hf with ⟨-, hf⟩ | ⟨-, k', hk', hf⟩
    · rw [List.mem_singleton.mp hf]
      exact .other _ (by simp) (by simp) (by simp)
    · simp only [Function.update_self, Option.some.injEq] at hk'
      subst hk'
      exact Arrives.push hstack hf (by simp) (by simp) (by simp)
  | exit | leave =>
    rcases State.mem_point hf with ⟨-, hf⟩ | ⟨-, k', hk', -⟩
    · rw [List.mem_singleton.mp hf]
      exact .other _ (by simp) (by simp) (by simp)
    · simp at hk'
  | fork _ _ _ k _ _ _ hstack _ _ _ _ hk =>
    rcases hk with ⟨-, rfl, -⟩ | ⟨-, rfl, -⟩ <;>
      rcases State.mem_point hf with ⟨-, hf⟩ | ⟨hnil, -⟩
    · rcases List.mem_cons.mp hf with rfl | hf
      · exact .other _ (by simp) (by simp) (by simp)
      · exact Arrives.push hstack hf (by simp) (by simp) (by simp)
    · exact absurd (hnil rfl) (body_own_ne_nil rfl rfl)
    · exact Arrives.push hstack hf (by simp) (by simp) (by simp)
    · exact absurd (hnil rfl) (body_own_ne_nil rfl rfl)
  | dispatchNew _ _ _ _ hstack | dispatchOld _ _ _ _ _ hstack => exact absurd rfl (hsystem hstack)
  | unlock _ _ _ hstack | lock _ _ _ hstack | sigWake _ _ _ _ _ _ _ _ hstack
  | semWake _ _ _ _ _ _ hstack | semValue _ _ _ _ _ hstack | semFree _ _ _ hstack
  | newLock _ hstack | newCond _ _ hstack | newSem _ _ hstack =>
    rcases State.mem_point hf with ⟨-, hf⟩ | ⟨hnil, -⟩
    · exact Arrives.push hstack hf (by simp) (by simp) (by simp)
    · exact absurd (hnil rfl) (body_own_ne_nil rfl rfl)
  | record | insertWhole | insertCall | inserting | inserted | counted =>
    rcases State.mem_point hf with ⟨-, hf⟩ | ⟨hnil, -⟩
    · rw [List.mem_singleton.mp hf]
      exact .other _ (by simp) (by simp) (by simp)
    · exact absurd (hnil rfl) (body_own_ne_nil rfl rfl)

end UserThreads.Threads
