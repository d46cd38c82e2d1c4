import UserThreads.SignalOrder
import UserThreads.Turns

/-!
The call that is due of a thread: the routine that it has called and that has not taken
effect. A `t_wait` takes effect when it puts the thread into a queue, which is after its
first step. Only the thread's own steps change what is due of it.
-/
namespace UserThreads.Threads

open LinkedCells Queue Runs MultilevelQueue

/-- The calls of a program without locks and semaphores. -/
def Op.bare : Op → Bool
  | .tFork .. | .tYield | .tWait _ none | .tSig _ _ none | .tExit _ | .condCreate _ true => true
  | _ => false

theorem Op.bare_plain {op : Op} (h : op.bare = true) : op.plain = true := by
  cases op with
  | tJoin | semaphoreCreate | semaphoreDestroy => cases h
  | _ => rfl

section Due

/-! The routine that a thread has called and that has not taken effect. -/

/-- The same, by the point of the thread. -/
def dueAt : List Frame → Option Op
  | [.enter op, .user] => some op
  | [.waiting c, .user] => some (.tWait c none)
  | _ => none

def State.due (s : State) (t : Tid) : Option Op := dueAt (s.point t)

variable {g : Grain} {s s' : State} {m : Move} {t : Tid} {f : Frame} {k : List Frame}

/-- The point of a thread that does not execute changes only when it is new. -/
theorem Trans.point_idle (h : Trans g s m s') (hl : Lives s)
    (hidle : t = s.currentRunningThread → ¬ s.Executes m) :
    s'.point t = s.point t ∨ s.point t = [] ∧ (s'.point t = [.start] ∨ s'.point t = []) := by
  by_cases ht : entries t s.hist = []
  · rcases h.point hl.regular.parked t with
      hsame | ⟨hcur, hexec⟩ | ⟨hstarts, hpoint⟩ | ⟨hid, hpoint⟩
    · exact Or.inl hsame
    · exact absurd hexec (hidle hcur)
    · refine Or.inr ⟨by_contra fun hne => ?_, Or.inl hpoint⟩
      rcases hl.starts.entered t hne with hmem | hentered
      · exact (hl.starts.flag t hmem).1 hstarts.flag
      · exact hentered ht
    · refine Or.inr ⟨by_contra fun hne => ?_, Or.inr hpoint⟩
      rcases hl.starts.entered t hne with hmem | hentered
      · exact (hl.starts.unmade t (hid ▸ lt_next _)).2.2 (Or.inr hmem)
      · exact hentered ht
  · exact Or.inl (h.point_kept hl.regular hl.starts ht hidle)

theorem Trans.due_kept (h : Trans g s m s') (hl : Lives s)
    (hidle : t = s.currentRunningThread → ¬ s.Executes m) : s'.due t = s.due t := by
  unfold State.due
  rcases h.point_idle hl hidle with hsame | ⟨hnil, hnew | hnew⟩
  · rw [hsame]
  · rw [hnil, hnew]
    rfl
  · rw [hnil, hnew]

/-- What is due of a thread that runs is seen at the top of the stack. -/
theorem due_top (hstack : s.stack = f :: k) (hf : f.isTimer = false) (hf' : f.isSystem = false) :
    s.due s.currentRunningThread = dueAt (f :: k) := by
  have hbody : body s.stack = f :: k := by rw [hstack, body_own hf hf']
  rw [State.due, State.point_current (by rw [hbody]; exact List.cons_ne_nil f k), hbody]

/-- How a step of a thread changes its stack `k`, as far as a `t_wait` in it goes. -/
inductive Passes (k : List Frame) : List Frame → Prop
  | base (f : Frame) (hf : ∀ c, f ≠ .waiting c) : Passes k [f]
  | replace (f f' : Frame) (rest : List Frame) (hk : k = f' :: rest) (hf : ∀ c, f ≠ .waiting c) :
      Passes k (f :: rest)
  | pop (f : Frame) (rest : List Frame) (hk : k = f :: rest) : Passes k rest
  | fork (tid : Tid) (rest : List Frame) : Passes k (.enter .tYield :: .forked tid :: rest)
  | unlock (c : CondId) (l : LockId) (rest : List Frame)
      (hk : k = .enter (.tWait c (some l)) :: rest) :
      Passes k (.enter (.lockRelease l) :: .waiting c :: rest)
  | wait (c : CondId) (rest : List Frame) (hk : k = .enter (.tWait c none) :: rest) :
      Passes k (.waiting c :: rest)
  | gone : Passes k []

theorem Control.passes {b : Bool} {es : List Event} (h : Control s .exec k b es)
    (hexec : s.Executes .exec) : Passes s.stack k := by
  cases h with
  | waitLock c l k hstack => exact .unlock c l k hstack
  | waitNull c k hstack => exact .wait c k hstack
  | nullReturn _ _ hstack | ret _ _ hstack | waitedNull _ hstack => exact .pop _ _ hstack
  | start | wakeSkip | wakeHit | wakeEnd | testHit | testMiss | take =>
    exact .base _ (by simp)
  | joinDone _ _ hstack | sigNone _ _ _ _ hstack | sigEmpty _ _ _ _ _ hstack
  | acquire _ _ hstack | forked _ _ hstack | enable _ _ hstack | joined _ _ hstack
  | waitedLock _ _ hstack | spinBusy _ _ _ hstack | spinFree _ _ hstack =>
    exact .replace _ _ _ hstack (by simp)
  | resumed _ hstack | handled _ hstack => cases (hexec.top hstack).1
  | sitBottom _ hstack | idle _ hstack => cases (hexec.top hstack).2

theorem Control.own_after {b : Bool} {es : List Event} (h : Control s .exec k b es)
    (hs : WellShaped s.stack) (hexec : s.Executes .exec) :
    ∃ f k', k = f :: k' ∧ f.isTimer = false ∧ f.isSystem = false := by
  cases h with
  | nullReturn _ _ hstack | ret _ _ hstack | waitedNull _ hstack =>
    rw [hstack] at hs
    rcases hs.below_inner rfl with rfl | ⟨tid, -, rfl⟩ | ⟨c, -, rfl⟩ <;> exact ⟨_, _, rfl, rfl, rfl⟩
  | resumed _ hstack | handled _ hstack => cases (hexec.top hstack).1
  | sitBottom _ hstack | idle _ hstack => cases (hexec.top hstack).2
  | _ => exact ⟨_, _, rfl, rfl, rfl⟩

theorem Trans.passes (h : Trans g s .exec s') (hs : WellShaped s.stack)
    (hexec : s.Executes .exec) : Passes s.stack (s'.point s.currentRunningThread) := by
  have htop : ∀ {s' : State} {f : Frame} {k : List Frame}, s'.stack = f :: k → f.isTimer = false →
      f.isSystem = false → s'.point s'.currentRunningThread = f :: k := by
    intro s' f k hstack hf hf'
    rw [State.point_current (by rw [hstack]; exact body_own_ne_nil hf hf'), hstack, body_own hf hf']
  have hgone : ∀ {s' : State} {f : Frame} {k : List Frame}, s'.stack = [f] → f.isSystem = true →
      f.isTimer = false → (s'.tcb s.currentRunningThread).context.getD [] = k →
      s'.point s.currentRunningThread = body k := by
    intro s' f k hstack hf hf' hcontext
    rw [State.point_of_nil (by simp [hstack, body, hf, hf']), hcontext]
  cases h with
  | control m k b es h =>
    obtain ⟨f, k', rfl, hf, hf'⟩ := h.own_after hs hexec
    rw [htop rfl hf hf']
    exact h.passes hexec
  | suspend q f k next store h =>
    cases h with
    | timer k hstack => cases (hexec.top hstack).1
    | yield k hstack | wait _ k hstack | pass _ _ k hstack =>
      rw [hgone rfl rfl rfl (by simp; rfl)]
      exact .replace _ _ _ hstack (by simp)
  | join _ k _ hstack =>
    rw [hgone rfl rfl rfl (by simp; rfl)]
    exact .replace _ _ _ hstack (by simp)
  | exit | leave =>
    rw [hgone rfl rfl rfl (by simp; rfl)]
    exact .gone
  | fork f v p k k' b store hstack _ _ caller _ hk =>
    rcases hk with ⟨-, rfl, -⟩ | ⟨-, rfl, -⟩
    · rw [htop rfl rfl rfl]
      exact .fork _ _
    · rw [htop rfl rfl rfl]
      exact .replace _ _ _ hstack (by simp)
  | dispatchNew _ _ _ _ hstack | dispatchOld _ _ _ _ _ hstack =>
    cases (hexec.top hstack).2
  | unlock _ _ _ hstack | lock _ _ _ hstack | sigWake _ _ _ _ _ _ _ _ hstack
  | semWake _ _ _ _ _ _ hstack | semValue _ _ _ _ _ hstack | semFree _ _ _ hstack
  | newLock _ hstack | newCond _ _ hstack | newSem _ _ hstack =>
    rw [htop rfl rfl rfl]
    exact .replace _ _ _ hstack (by simp)
  | record | insertWhole | insertCall | inserting | inserted | counted =>
    rw [htop rfl rfl rfl]
    exact .base _ (by simp)
/-- A step that begins a routine or ends the thread leaves it in no `t_wait`. -/
theorem point_begun (hexec : s.Executes m) (hm : m ≠ .exec) (hstep : step g m s = some s') :
    ∃ f rest, s'.point s.currentRunningThread = f :: rest ∧ (∀ c, f ≠ .waiting c) ∧
      ∀ c, rest ≠ [.waiting c, .user] := by
  cases m with
  | expire => exact absurd rfl hexec.1
  | exec => exact absurd rfl hm
  | call op | finish =>
    simp only [step] at hstep
    split at hstep
    · cases hstep
      exact ⟨_, _, State.point_current (body_own_ne_nil rfl rfl), by simp, by simp⟩
    · cases hstep

end Due

variable {G L : Type}

def Program.Bare (P : Program G L) : Prop :=
  ∀ shared place op next, P.code shared place = .call op next → op.bare = true

theorem Program.Bare.plain {P : Program G L} (h : P.Bare) : P.Plain :=
  fun _ _ _ _ hcode => Op.bare_plain (h _ _ _ _ hcode)

end UserThreads.Threads
