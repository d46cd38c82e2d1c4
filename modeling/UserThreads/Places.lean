import UserThreads.Tids

/-!
Where threads are when each routine is one atomic step. A thread is on the
processor, in queues, or in the join table; `PlaceMove` says what a move does to
these places, with the queues as levels.
-/
namespace UserThreads.Threads

open LinkedCells Queue Runs MultilevelQueue

/-- The slot at which the wake loop is. -/
def loopIndex : List Frame → Option ℕ
  | .wake i _ :: _ | .wakeTest i _ :: _ | .wakeTake i :: _ | .insert i _ :: _ => some i
  | _ => none

namespace State

def Running (s : State) (t : Tid) : Prop :=
  t = s.currentRunningThread ∧ phase s.stack ≠ .system

def Ended (s : State) (t : Tid) : Prop := .ended t ∈ s.hist

/-- The saved context of the thread is that of a `t_join` which waits. -/
def Joins (s : State) (t tid : Tid) : Prop := ∃ k, (s.tcb t).context = some (.joined tid :: k)

end State

/-- With atomic routines the timer finds a thread in its own code only. -/
structure Seated (s : State) : Prop where
  stack : ∀ f k, s.stack = f :: k → f.isTimer = true → k = [.user]
  context : ∀ t f k, (s.tcb t).context = some (f :: k) → f.isTimer = true → k = [.user]

/-- What a move does to the contexts and join targets of threads. -/
def SameJoins (s s' : State) : Prop :=
  ∀ t, (s'.tcb t).context = (s.tcb t).context ∧
    (s'.tcb t).waitingForTid = (s.tcb t).waitingForTid

/-- The wake loop stays at its slot, or has passed one that is not of its thread. -/
def LoopKept (s : State) (k : List Frame) : Prop :=
  ∀ i, loopIndex k = some i → loopIndex s.stack = some i ∨
    ∃ j, i = j + 1 ∧ loopIndex s.stack = some j ∧
      (joinTarget s j = 0 ∨ joinTarget s j ≠ s.currentRunningThread)

variable {s s' : State} {m : Move} {t : Tid} {f : Frame} {k : List Frame} {q : QRef}

theorem Frame.phase_of_isCall (hf : f.isCall = true) : f.phase = .code := by
  cases f <;> simp_all [isCall, isBase, isTimer, phase]

theorem WellShaped.tail_phase (h : WellShaped (f :: k)) (hf : f.isCall = true) :
    phase k = .code ∧ loopIndex k = none ∧ ∀ f' k', k = f' :: k' → f'.isTimer = false := by
  rcases h.below_inner hf with rfl | ⟨_, -, rfl⟩ | ⟨_, -, rfl⟩ <;>
    exact ⟨rfl, rfl, fun f' k' h => by cases h; rfl⟩

theorem Trans.seated_stack {g : Grain} (h : Trans g s m s') (hatomic : Atomic m s) (hs : Shaped s)
    (hseat : Seated s) (hstack' : s'.stack = f :: k) (hf : f.isTimer = true) : k = [.user] := by
  have hpop : ∀ {f' : Frame}, s.stack = f' :: s'.stack → f'.isCall = true → k = [.user] := by
    intro f' hstack hcall
    have hw := hs.stack
    rw [hstack] at hw
    have hnot := (hw.tail_phase hcall).2.2 f k hstack'
    rw [hf] at hnot
    cases hnot
  cases h with
  | control m k' b es h =>
    cases h with
    | expire =>
      cases hstack'
      exact hatomic rfl
    | resumed k' hstack =>
      cases hstack'
      exact hseat.stack _ _ hstack rfl
    | handled k' hstack =>
      have huser := hseat.stack _ _ hstack rfl
      rw [show k' = f :: k from hstack'] at huser
      cases huser
      cases hf
    | nullReturn _ _ hstack | ret _ _ hstack | waitedNull _ hstack => exact hpop hstack rfl
    | _ =>
      cases hstack'
      cases hf
  | suspend q f' k' next store h =>
    cases hstack'
    cases h <;> cases hf
  | fork _ _ _ _ _ _ _ _ _ _ _ _ hk =>
    rcases hk with ⟨-, rfl, -⟩ | ⟨-, rfl, -⟩ <;>
      · cases hstack'
        cases hf
  | dispatchOld _ _ _ k' _ _ _ _ _ _ hcontext =>
    rw [show k' = f :: k from hstack'] at hcontext
    exact hseat.context _ _ _ hcontext hf
  | _ =>
    cases hstack'
    cases hf

theorem Trans.seated_context {g : Grain} (h : Trans g s m s') (hseat : Seated s)
    (hk : (s'.tcb t).context = some (f :: k)) (hf : f.isTimer = true) : k = [.user] := by
  have hupdate : ∀ (u : Tid) (c : Tcb), (Function.update s.tcb u c t).context = some (f :: k) →
      (c.context = some (f :: k) → k = [.user]) → k = [.user] := by
    intro u c hk hc
    by_cases htu : t = u
    · subst htu
      exact hc (by simpa only [Function.update_self] using hk)
    · rw [Function.update_of_ne htu] at hk
      exact hseat.context t f k hk hf
  cases h with
  | suspend q f' k' next store h =>
    refine hupdate _ _ hk fun hc => ?_
    cases hc
    cases h with
    | timer _ hstack => exact hseat.stack _ _ hstack rfl
    | _ => cases hf
  | join =>
    refine hupdate _ _ hk fun hc => ?_
    cases hc
    cases hf
  | fork | exit | leave => exact hupdate _ _ hk (by simp)
  | sigWake | dispatchNew => exact hupdate _ _ hk fun hc => hseat.context _ f k hc hf
  | _ => exact hseat.context t f k hk hf

theorem Trans.seated {g : Grain} (h : Trans g s m s') (hatomic : Atomic m s) (hs : Shaped s)
    (hseat : Seated s) : Seated s' where
  stack _ _ hstack hf := h.seated_stack hatomic hs hseat hstack hf
  context _ _ _ hk hf := h.seated_context hseat hk hf

theorem Initial.seated (h : Initial s) : Seated s := by
  obtain ⟨f, v, p, hb⟩ := h.begun
  refine ⟨fun f k hstack hf => ?_, fun t f k hk _ => ?_⟩
  · rw [hb.stack] at hstack
    cases hstack
    cases hf
  · by_cases ht : t = 1
    · simp [hb.tcb, ht] at hk
    · simp [hb.tcb, Function.update_of_ne ht] at hk

/-- What a move does to the places of threads. -/
inductive PlaceMove (s s' : State) : Move → Prop
  | keep (m : Move) (hcontents : s'.contents = s.contents) (htcb : s'.tcb = s.tcb)
      (htable : s'.tcbWaiting = s.tcbWaiting) (hid : s'.gThreadID = s.gThreadID)
      (hcur : s'.currentRunningThread = s.currentRunningThread)
      (hended : ∀ t, s'.Ended t ↔ s.Ended t) (hphase : phase s'.stack = phase s.stack)
      (hloop : LoopKept s s'.stack) : PlaceMove s s' m
  | finish (hstack : s.stack = [.user]) (hstack' : s'.stack = [.wake 0 false])
      (hcontents : s'.contents = s.contents) (htcb : s'.tcb = s.tcb)
      (htable : s'.tcbWaiting = s.tcbWaiting) (hid : s'.gThreadID = s.gThreadID)
      (hcur : s'.currentRunningThread = s.currentRunningThread)
      (hhist : s'.hist = .ended s.currentRunningThread :: s.hist) : PlaceMove s s' .finish
  | abandon (f : Frame) (hstack : phase s.stack ≠ .system) (hstack' : s'.stack = [f])
      (hf : f.phase = .system) (hcontents : s'.contents = s.contents)
      (htcb : s'.tcb = Function.update s.tcb s.currentRunningThread
        { s.current with context := none })
      (htable : s'.tcbWaiting = s.tcbWaiting) (hid : s'.gThreadID = s.gThreadID)
      (hcur : s'.currentRunningThread = s.currentRunningThread)
      (hended : s'.hist = .ended s.currentRunningThread :: s.hist ∨
        s'.hist = s.hist ∧ phase s.stack = .epilogue) : PlaceMove s s' .exec
  | suspend (q : QRef) (f : Frame) (k : List Frame) (hphase : phase s.stack = .code)
      (hphase' : phase s'.stack = .system) (hf : ∀ tid, f ≠ .joined tid)
      (hcontents : s'.contents = Levels.append s.contents q s.currentRunningThread)
      (htcb : s'.tcb = Function.update s.tcb s.currentRunningThread
        { s.current with context := some (f :: k) })
      (htable : s'.tcbWaiting = s.tcbWaiting) (hid : s'.gThreadID = s.gThreadID)
      (hcur : s'.currentRunningThread = s.currentRunningThread)
      (hended : ∀ t, s'.Ended t ↔ s.Ended t) : PlaceMove s s' .exec
  | fork (f : ThreadFunc) (v : AnyPtr) (p : ℤ) (hphase : phase s.stack = .code)
      (hphase' : phase s'.stack = .code)
      (hcontents : s'.contents = Levels.append s.contents (.ready p) (s.gThreadID + 1))
      (htcb : s'.tcb = Function.update s.tcb (s.gThreadID + 1)
        { func := f, arg := v, priority := p, flag := 1 })
      (htable : s'.tcbWaiting = s.tcbWaiting) (hid : s'.gThreadID = s.gThreadID + 1)
      (hcur : s'.currentRunningThread = s.currentRunningThread)
      (hended : ∀ t, s'.Ended t ↔ s.Ended t) : PlaceMove s s' .exec
  | join (tid : Tid) (k : List Frame) (slot : ℕ) (hstack : s.stack = .enter (.tJoin tid) :: k)
      (hexited : tid ∉ s.exitedThreadIDs) (hstack' : s'.stack = [.sched])
      (hcontents : s'.contents = s.contents)
      (htcb : s'.tcb = Function.update s.tcb s.currentRunningThread
        { s.current with context := some (.joined tid :: k), flag := 0, waitingForTid := tid })
      (htable : s'.tcbWaiting = Function.update s.tcbWaiting slot (some s.currentRunningThread))
      (hid : s'.gThreadID = s.gThreadID)
      (hcur : s'.currentRunningThread = s.currentRunningThread)
      (hended : ∀ t, s'.Ended t ↔ s.Ended t) : PlaceMove s s' .exec
  | move (q : QRef) (p : ℤ) (t : Tid) (rest : List Tid) (hphase : phase s.stack = .code)
      (hphase' : phase s'.stack = .code) (hhead : s.contents q = t :: rest)
      (hcontents : s'.contents = Levels.append (Levels.set s.contents q rest) (.ready p) t)
      (htcb : SameJoins s s') (htable : s'.tcbWaiting = s.tcbWaiting)
      (hid : s'.gThreadID = s.gThreadID)
      (hcur : s'.currentRunningThread = s.currentRunningThread)
      (hended : ∀ t, s'.Ended t ↔ s.Ended t) : PlaceMove s s' .exec
  | insert (i : ℕ) (t : Tid) (p : ℤ) (k : List Frame) (hstack : s.stack = .insert i t :: k)
      (hstack' : s'.stack = [.wake (i + 1) true])
      (hcontents : s'.contents = Levels.append s.contents (.ready p) t) (htcb : s'.tcb = s.tcb)
      (htable : s'.tcbWaiting = s.tcbWaiting) (hid : s'.gThreadID = s.gThreadID)
      (hcur : s'.currentRunningThread = s.currentRunningThread)
      (hended : ∀ t, s'.Ended t ↔ s.Ended t) : PlaceMove s s' .exec
  | dispatch (y : ℤ) (t : Tid) (k : List Frame) (rest : List Tid) (hstack : s.stack = .sched :: k)
      (hphase' : phase s'.stack = .code) (hhead : s.contents (.ready y) = t :: rest)
      (hcontents : s'.contents = Levels.set s.contents (.ready y) rest)
      (htcb : SameJoins s s') (htable : s'.tcbWaiting = s.tcbWaiting)
      (hid : s'.gThreadID = s.gThreadID) (hcur : s'.currentRunningThread = t)
      (hended : ∀ t, s'.Ended t ↔ s.Ended t) : PlaceMove s s' .exec

theorem loopKept_none (h : loopIndex k = none) : LoopKept s k := by
  intro i hi
  rw [h] at hi
  cases hi

theorem Control.loopKept {b : Bool} {es : List Event} (h : Control s m k b es)
    (hm : m ≠ .finish) (hs : Shaped s) (hseat : Seated s) (hatomic : Atomic m s) :
    LoopKept s k ∧ phase k = phase s.stack := by
  have hpop : ∀ {f : Frame}, s.stack = f :: k → f.isCall = true →
      LoopKept s k ∧ phase k = phase s.stack := by
    intro f hstack hcall
    have hw := hs.stack
    rw [hstack] at hw
    obtain ⟨hphase, hloop, -⟩ := hw.tail_phase hcall
    refine ⟨loopKept_none hloop, ?_⟩
    rw [hphase, hstack]
    exact (Frame.phase_of_isCall hcall).symm
  have hcode : ∀ {f : Frame} {k' : List Frame}, s.stack = f :: k' → loopIndex k = none →
      phase k = f.phase → LoopKept s k ∧ phase k = phase s.stack := by
    intro f k' hstack hloop hphase
    exact ⟨loopKept_none hloop, by rw [hphase, hstack]; rfl⟩
  cases h with
  | finish => exact absurd rfl hm
  | expire => exact hcode (hatomic rfl) rfl rfl
  | handled _ hstack =>
    have huser := hseat.stack _ _ hstack rfl
    subst huser
    exact hcode hstack rfl rfl
  | nullReturn _ _ hstack | ret _ _ hstack | waitedNull _ hstack => exact hpop hstack rfl
  | enable f k hstack hf =>
    exact hcode hstack rfl (by rcases hf with rfl | rfl | rfl <;> rfl)
  | call _ hstack | joinDone _ _ hstack | waitLock _ _ _ hstack | waitNull _ _ hstack
  | sigNone _ _ _ _ hstack | sigEmpty _ _ _ _ _ hstack | acquire _ _ hstack | forked _ _ hstack
  | joined _ _ hstack | waitedLock _ _ hstack | spinBusy _ _ _ hstack | spinFree _ _ hstack
  | resumed _ hstack | start _ hstack | wakeEnd _ _ hstack | sitBottom _ hstack | idle _ hstack =>
    exact hcode hstack rfl rfl
  | wakeHit i waked k hstack | testHit i waked k hstack | take i t k hstack =>
    rw [LoopKept, hstack]
    exact ⟨fun j hj => Or.inl hj, rfl⟩
  | wakeSkip i waked k hstack hi htarget =>
    rw [LoopKept, hstack]
    exact ⟨fun j hj => Or.inr ⟨i, (Option.some.inj hj).symm, rfl, Or.inl htarget⟩, rfl⟩
  | testMiss i waked k hstack htarget =>
    rw [LoopKept, hstack]
    exact ⟨fun j hj => Or.inr ⟨i, (Option.some.inj hj).symm, rfl, Or.inr htarget.symm⟩, rfl⟩

/-- A thread is taken from the head of one queue and put at the end of another. -/
theorem contents_move {r : QRef} (hq : QueuesOk AllQueues s) (hq' : QueuesOk AllQueues s')
    (hne : r ≠ q) (hhist : s'.hist = .inserted r t :: .removed q t :: s.hist) :
    ∃ rest, s.contents q = t :: rest ∧
      s'.contents = Levels.append (Levels.set s.contents q rest) r t := by
  have hrem : ∀ j, j ≠ q → removedAt j s'.hist = removedAt j s.hist := fun j hj => by
    simp [hhist, removedAt, Ne.symm hj]
  have hins : ∀ j, j ≠ r → insertedAt j s'.hist = insertedAt j s.hist := fun j hj => by
    simp [hhist, insertedAt, Ne.symm hj]
  refine ⟨s'.contents q, hq.contents_removed hq' trivial (hins q hne.symm) (by
    simp [hhist, removedAt]), ?_⟩
  funext j
  by_cases hj : j = r
  · subst hj
    rw [Levels.append, Levels.set_self, Levels.set_of_ne hne]
    exact hq.contents_inserted hq' trivial _ (by simp [hhist, insertedAt]) (hrem j hne)
  · rw [Levels.append, Levels.set_of_ne hj]
    by_cases hjq : j = q
    · rw [hjq, Levels.set_self]
    · rw [Levels.set_of_ne hjq]
      exact hq.contents_same hq' trivial (hins j hj) (hrem j hjq)

theorem Trans.placeMove (h : Trans .routine s m s') (hatomic : Atomic m s) (hs : Shaped s)
    (hseat : Seated s) (hq : QueuesOk AllQueues s) : PlaceMove s s' m := by
  have hq' : QueuesOk AllQueues s' := h.queuesOk hq steady_of_routine
  have hsame : (∀ q, insertedAt q s'.hist = insertedAt q s.hist ∧
      removedAt q s'.hist = removedAt q s.hist) → s'.contents = s.contents :=
    fun h => contents_same (f := id) hq hq' h
  cases h with
  | control m k b es h =>
    have hcontents := hsame fun r => by cases h <;> exact ⟨rfl, rfl⟩
    by_cases hm : m = .finish
    · subst hm
      cases h with
      | finish hstack => exact .finish hstack rfl hcontents rfl rfl rfl rfl rfl
    · obtain ⟨hloop, hphase⟩ := h.loopKept hm hs hseat hatomic
      refine .keep _ hcontents rfl rfl rfl rfl (fun t => ?_) hphase hloop
      cases h <;> first | exact absurd rfl hm | simp [State.Ended]
  | suspend q f k next store h hslot =>
    have hcontents := contents_append (f := id) (i := q) (t := s.currentRunningThread) hq hq'
      (fun r => by simp [removedAt]) fun r => by simp [insertedAt]
    refine .suspend q f k ?_ ?_ ?_ hcontents rfl rfl rfl rfl (fun t => by simp [State.Ended])
    · cases h with
      | yield _ hstack | timer _ hstack | wait _ _ hstack | pass _ _ _ hstack =>
        rw [hstack]
        rfl
    · cases h <;> rfl
    · cases h <;> simp
  | fork f v p k k' b store hstack _ _ caller _ hk =>
    have hcontents := contents_append (f := id) (i := .ready p) (t := s.gThreadID + 1) hq hq'
      (fun r => by simp [removedAt]) fun r => by simp [insertedAt]
    refine .fork f v p (by rw [hstack]; rfl) ?_ hcontents rfl rfl rfl rfl
      (fun t => by simp [State.Ended])
    rcases hk with ⟨-, rfl, -⟩ | ⟨-, rfl, -⟩ <;> rfl
  | join tid k slot hstack hexited =>
    exact .join tid k slot hstack hexited rfl (hsame fun _ => ⟨rfl, rfl⟩) rfl rfl rfl rfl
      fun _ => Iff.rfl
  | sigWake c val lock k i t store store' hstack _ _ hrem =>
    obtain ⟨rest, hhead, hcontents⟩ := contents_move (q := .cond c i)
      (r := .ready (s.tcb t).priority) (t := t) hq hq' (by simp) rfl
    refine .move _ _ t rest (by rw [hstack]; rfl) rfl hhead hcontents (fun u => ?_) rfl rfl rfl
      fun u => by simp [State.Ended]
    by_cases hu : u = t
    · subst hu
      simp
    · simp [Function.update_of_ne hu]
  | semWake i k v t store store' hstack _ _ _ hrem =>
    obtain ⟨rest, hhead, hcontents⟩ := contents_move (q := .sem i)
      (r := .ready s.current.priority) (t := t) hq hq' (by simp) rfl
    exact .move _ _ t rest (by rw [hstack]; rfl) rfl hhead hcontents (fun u => ⟨rfl, rfl⟩) rfl rfl
      rfl fun u => by simp [State.Ended]
  | exit val k hstack =>
    exact .abandon .sched (by simp [hstack, phase, Frame.phase]) rfl rfl
      (hsame fun _ => ⟨rfl, rfl⟩) rfl rfl rfl rfl (Or.inl rfl)
  | leave k hstack =>
    exact .abandon .sitBottom (by simp [hstack, phase, Frame.phase]) rfl rfl
      (hsame fun _ => ⟨rfl, rfl⟩) rfl rfl rfl rfl (Or.inr ⟨rfl, by rw [hstack]; rfl⟩)
  | insertWhole i t k store _ hstack =>
    have hcontents := contents_append (f := id) (i := .ready (s.tcb t).priority) (t := t) hq hq'
      (fun r => by simp [removedAt]) fun r => by simp [insertedAt]
    exact .insert i t _ k hstack rfl hcontents rfl rfl rfl rfl fun t => by simp [State.Ended]
  | insertCall _ _ _ _ _ hgrain | inserting _ _ _ _ _ _ _ _ hgrain | inserted _ _ _ _ _ _ hgrain
  | counted _ _ _ _ _ hgrain =>
    cases hgrain
  | dispatchNew y t k store hstack =>
    obtain ⟨rest, hhead, hcontents⟩ := contents_take (f := id) (i := .ready y) (t := t) hq hq'
      (fun r => by simp [insertedAt]) fun r => by simp [removedAt]
    refine .dispatch y t k rest hstack rfl hhead hcontents (fun u => ?_) rfl rfl rfl
      fun u => by simp [State.Ended]
    by_cases hu : u = t
    · subst hu
      simp
    · simp [Function.update_of_ne hu]
  | dispatchOld y t k k' store hstack _ _ _ _ hcontext =>
    obtain ⟨rest, hhead, hcontents⟩ := contents_take (f := id) (i := .ready y) (t := t) hq hq'
      (fun r => by simp [insertedAt]) fun r => by simp [removedAt]
    refine .dispatch y t k rest hstack ?_ hhead hcontents (fun u => ⟨rfl, rfl⟩) rfl rfl rfl
      fun u => by simp [State.Ended]
    cases hs.context t k' hcontext with
    | intro hf _ => exact Frame.phase_of_isResume hf
  | unlock _ _ _ hstack | lock _ _ _ hstack | semValue _ _ _ _ _ hstack | semFree _ _ _ hstack
  | newLock _ hstack | newCond _ _ hstack | newSem _ _ hstack =>
    refine .keep _ (hsame fun _ => ⟨rfl, rfl⟩) rfl rfl rfl rfl (fun t => by simp [State.Ended])
      (by rw [hstack]; rfl) (loopKept_none rfl)
  | record i k hstack =>
    exact .keep _ (hsame fun _ => ⟨rfl, rfl⟩) rfl rfl rfl rfl (fun t => Iff.rfl)
      (by rw [hstack]; rfl) (loopKept_none rfl)

theorem PlaceMove.ended_mono (h : PlaceMove s s' m) (ht : s.Ended t) : s'.Ended t := by
  cases h with
  | keep _ _ _ _ _ _ hended | suspend _ _ _ _ _ _ _ _ _ _ _ hended
  | fork _ _ _ _ _ _ _ _ _ _ hended | join _ _ _ _ _ _ _ _ _ _ _ hended
  | move _ _ _ _ _ _ _ _ _ _ _ _ hended | insert _ _ _ _ _ _ _ _ _ _ _ hended
  | dispatch _ _ _ _ _ _ _ _ _ _ _ _ hended =>
    exact (hended t).mpr ht
  | finish _ _ _ _ _ _ _ hhist =>
    rw [State.Ended, hhist]
    exact List.mem_cons_of_mem _ ht
  | abandon _ _ _ _ _ _ _ _ _ hended =>
    rw [State.Ended]
    rcases hended with hhist | ⟨hhist, -⟩
    · rw [hhist]
      exact List.mem_cons_of_mem _ ht
    · rwa [hhist]

/-- A thread in the epilogue has ended. -/
theorem PlaceMove.epilogue (h : PlaceMove s s' m)
    (hbefore : phase s.stack = .epilogue → s.Ended s.currentRunningThread)
    (hphase : phase s'.stack = .epilogue) : s'.Ended s'.currentRunningThread := by
  have hmono : ∀ u, s.Ended u → s'.Ended u := fun _ => h.ended_mono
  cases h with
  | keep _ _ _ _ _ hcur _ hsame =>
    rw [hcur]
    exact hmono _ (hbefore (hsame ▸ hphase))
  | finish _ _ _ _ _ _ hcur hhist =>
    rw [hcur, State.Ended, hhist]
    exact List.mem_cons_self ..
  | insert i u p k hstack _ _ _ _ _ hcur =>
    rw [hcur]
    exact hmono _ (hbefore (by rw [hstack]; rfl))
  | abandon f _ hstack' hf | join _ _ _ _ _ hstack' =>
    rw [hstack'] at hphase
    simp_all [phase, Frame.phase]
  | suspend _ _ _ _ hphase' | fork _ _ _ _ hphase' | move _ _ _ _ _ hphase'
  | dispatch _ _ _ _ _ hphase' =>
    rw [hphase'] at hphase
    cases hphase

/-- What holds throughout a run in which each routine is one step. -/
structure Orderly (s : State) : Prop extends Whole s where
  seated : Seated s

theorem Trans.orderly (h : Trans .routine s m s') (hatomic : Atomic m s) (ho : Orderly s) :
    Orderly s' where
  toWhole := h.whole hatomic.epilogueWhole ho.toWhole
  seated := h.seated hatomic ho.regular.shaped ho.seated

theorem Orderly.placeMove (ho : Orderly s) (h : Trans .routine s m s') (hatomic : Atomic m s) :
    PlaceMove s s' m :=
  h.placeMove hatomic ho.regular.shaped ho.seated ho.queues

theorem Initial.orderly (h : Initial s) : Orderly s :=
  ⟨h.whole, h.seated⟩

end UserThreads.Threads
