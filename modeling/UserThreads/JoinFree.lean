import UserThreads.Joining

/-!
Runs in which no thread calls `t_join`. Nobody is in the join table, so the wake
loop of `incrementStack` inserts nothing and every queue is right in every state,
whenever the timer fires. `Shift` says what a move then does to the queues. A
thread stands in at most one queue, once, and the running thread in none.
-/
namespace UserThreads.Threads

open LinkedCells Queue Runs MultilevelQueue

def Move.callsJoin : Move → Bool
  | .call (.tJoin _) => true
  | _ => false

/-- No thread calls `t_join`. -/
def NoJoins : Move → State → Prop := fun m _ => m.callsJoin = false

instance (m : Move) (s : State) : Decidable (NoJoins m s) :=
  inferInstanceAs (Decidable (_ = false))

/-- The program points of `t_join`, and those of the wake loop past its loop head. -/
def Frame.joining : Frame → Bool
  | .enter (.tJoin _) | .joined _ | .wakeTest .. | .wakeTake _ | .insert .. | .inserting .. => true
  | _ => false

structure JoinFree (s : State) : Prop where
  table : ∀ i, s.tcbWaiting i = none
  frames : ∀ f, s.Mentions f → f.joining = false

namespace State

/-- No thread is on the processor, and SIGVTALRM is blocked. -/
def Vacant (s : State) : Prop := s.blocked = true ∧ ∃ f : Frame, f.isSystem = true ∧ s.stack = [f]

end State

variable {g : Grain} {s s' : State} {m : Move} {t : Tid} {q : QRef} {f : Frame} {k : List Frame}
  {b : Bool} {es : List Event}

theorem JoinFree.top (hj : JoinFree s) (hstack : s.stack = f :: k) : f.joining = false :=
  hj.frames f (Or.inl (by simp [hstack]))

theorem JoinFree.below (hj : JoinFree s) (hstack : s.stack = f :: k) {f' : Frame} (hf : f' ∈ k) :
    f'.joining = false :=
  hj.frames f' (Or.inl (by simp [hstack, hf]))

theorem not_joining_alone {f' : Frame} (hnew : f'.joining = false) (hf : f ∈ [f']) :
    f.joining = false := by
  rwa [List.mem_singleton.mp hf]

/-- A frame that replaces the top. -/
theorem JoinFree.push (hj : JoinFree s) (hstack : s.stack = f :: k) {f' f'' : Frame}
    (hnew : f'.joining = false) (hf : f'' ∈ f' :: k) : f''.joining = false := by
  rcases List.mem_cons.mp hf with rfl | hf
  · exact hnew
  · exact hj.below hstack hf

/-- No insertion of the wake loop is under way. -/
theorem JoinFree.steady (hj : JoinFree s) : s.Steady g AllQueues := by
  intro _ f k hstack hf
  have htop := hj.top hstack
  cases f <;> simp_all [Frame.joining, Frame.inserts]

theorem Control.joinFree (h : Control s m k b es) (hj : JoinFree s) (hm : NoJoins m s)
    (hf : f ∈ k) : f.joining = false := by
  cases h with
  | expire =>
    rcases List.mem_cons.mp hf with rfl | hf
    · rfl
    · exact hj.frames f (Or.inl hf)
  | call op =>
    simp only [List.mem_cons, List.not_mem_nil, or_false] at hf
    rcases hf with rfl | rfl
    · cases op with
      | tJoin tid => cases hm
      | _ => rfl
    · rfl
  | waitLock c l k hstack =>
    rcases List.mem_cons.mp hf with rfl | hf
    · rfl
    · exact hj.push hstack rfl hf
  | nullReturn _ _ hstack | ret _ _ hstack | waitedNull _ hstack | handled _ hstack =>
    exact hj.below hstack hf
  | joinDone _ _ hstack | waitNull _ _ hstack | sigNone _ _ _ _ hstack
  | sigEmpty _ _ _ _ _ hstack | acquire _ _ hstack | forked _ _ hstack | enable _ _ hstack
  | joined _ _ hstack | waitedLock _ _ hstack | spinBusy _ _ _ hstack | spinFree _ _ hstack
  | resumed _ hstack =>
    exact hj.push hstack rfl hf
  | wakeHit i waked k hstack hi htarget =>
    exact absurd (by simp [joinTarget, hj.table i]) htarget
  | testHit _ _ _ hstack | take _ _ _ hstack => cases hj.top hstack
  | finish | start | wakeSkip | wakeEnd | testMiss | sitBottom | idle =>
    exact not_joining_alone rfl hf

theorem Initial.joinFree (h : Initial s) : JoinFree s := by
  have hmentions : ∀ {f}, s.Mentions f → f = .sched := h.mentions
  obtain ⟨f, v, p, hb⟩ := h.begun
  refine ⟨fun i => by rw [hb.tcbWaiting], fun f hf => ?_⟩
  rw [hmentions hf]
  rfl

theorem Suspends.not_joining {next : Frame} (h : Suspends s q f k next) :
    f.joining = false ∧ next.joining = false := by
  cases h <;> exact ⟨rfl, rfl⟩

theorem Trans.joinFree (h : Trans g s m s') (hj : JoinFree s) (hm : NoJoins m s) :
    JoinFree s' := by
  have hsaved : ∀ {f : Frame}, (∃ u k, (s.tcb u).context = some k ∧ f ∈ k) →
      f.joining = false := fun hf => hj.frames _ (Or.inr hf)
  have hupdate : ∀ {f : Frame} {u : Tid} {c : Tcb},
      (∃ v k, (Function.update s.tcb u c v).context = some k ∧ f ∈ k) →
      (∀ k, c.context = some k → f ∈ k → f.joining = false) → f.joining = false := by
    intro f u c hf hc
    obtain ⟨v, k, hk, hf⟩ := hf
    by_contra hnot
    exact hnot (hj.frames f (mentions_of_update hk hf fun hk' => absurd (hc k hk' hf) hnot))
  cases h with
  | control m k b es h =>
    exact ⟨hj.table, fun f hf => hf.elim (h.joinFree hj hm) hsaved⟩
  | suspend q f k next store h =>
    obtain ⟨f', hstack⟩ := h.stack
    refine ⟨hj.table, fun f₁ hf => hf.elim (not_joining_alone h.not_joining.2) fun hf => ?_⟩
    refine hupdate hf fun k' hk' hf => ?_
    cases hk'
    exact hj.push hstack h.not_joining.1 hf
  | fork f v p k k' b store hstack _ _ caller _ hk =>
    refine ⟨hj.table, fun f₁ hf => hf.elim (fun hf => ?_) fun hf => hupdate hf (by simp)⟩
    rcases hk with ⟨-, rfl, -⟩ | ⟨-, rfl, -⟩
    · rcases List.mem_cons.mp hf with rfl | hf
      · rfl
      · exact hj.push hstack rfl hf
    · exact hj.push hstack rfl hf
  | join tid k slot hstack => cases hj.top hstack
  | unlock _ _ _ hstack | lock _ _ _ hstack | semWake _ _ _ _ _ _ hstack
  | semValue _ _ _ _ _ hstack | semFree _ _ _ hstack | newLock _ hstack | newCond _ _ hstack
  | newSem _ _ hstack =>
    exact ⟨hj.table, fun f hf => hf.elim (hj.push hstack rfl) hsaved⟩
  | sigWake c val lock k i t store store' hstack =>
    refine ⟨hj.table, fun f hf => hf.elim (hj.push hstack rfl) fun hf => ?_⟩
    exact hupdate hf fun k' hk' hf => hsaved ⟨_, k', hk', hf⟩
  | exit | leave =>
    exact ⟨hj.table, fun f hf => hf.elim (not_joining_alone rfl) fun hf => hupdate hf (by simp)⟩
  | record => exact ⟨hj.table, fun f hf => hf.elim (not_joining_alone rfl) hsaved⟩
  | insertWhole _ _ _ _ _ hstack | insertCall _ _ _ _ _ _ hstack
  | inserting _ _ _ _ _ _ _ _ _ hstack | inserted _ _ _ _ _ _ _ hstack
  | counted _ _ _ _ _ _ hstack =>
    cases hj.top hstack
  | dispatchNew y t k store hstack =>
    refine ⟨hj.table, fun f hf => hf.elim (not_joining_alone rfl) fun hf => ?_⟩
    exact hupdate hf fun k' hk' hf => hsaved ⟨_, k', hk', hf⟩
  | dispatchOld y t k k' store hstack _ _ _ _ hcontext =>
    exact ⟨hj.table, fun f hf => hf.elim (fun hf => hsaved ⟨_, k', hcontext, hf⟩) hsaved⟩

theorem not_vacant (hstack : s.stack = f :: k) (hf : f.isSystem = false) : ¬ s.Vacant := by
  intro h
  obtain ⟨-, f', hf', hstack'⟩ := h
  rw [hstack] at hstack'
  cases hstack'
  rw [hf] at hf'
  cases hf'

theorem Control.vacant (h : Control s m k b es) (hv : s.Vacant) :
    b = true ∧ ∃ f : Frame, f.isSystem = true ∧ k = [f] := by
  obtain ⟨hblocked, f, hf, hstack⟩ := hv
  cases h with
  | expire hmask =>
    rw [hmask] at hblocked
    cases hblocked
  | sitBottom | idle => exact ⟨rfl, _, rfl, rfl⟩
  | enable f' k' hstack' hf' =>
    rw [hstack] at hstack'
    cases hstack'
    rcases hf' with rfl | rfl | rfl <;> cases hf
  | call _ hstack' | finish hstack' | joinDone _ _ hstack' | waitLock _ _ _ hstack'
  | waitNull _ _ hstack' | sigNone _ _ _ _ hstack' | sigEmpty _ _ _ _ _ hstack'
  | acquire _ _ hstack' | nullReturn _ _ hstack' | ret _ _ hstack' | forked _ _ hstack'
  | joined _ _ hstack' | waitedNull _ hstack' | waitedLock _ _ hstack' | spinBusy _ _ _ hstack'
  | spinFree _ _ hstack' | resumed _ hstack' | handled _ hstack' | start _ hstack'
  | wakeSkip _ _ _ hstack' | wakeHit _ _ _ hstack' | wakeEnd _ _ hstack'
  | testHit _ _ _ hstack' | testMiss _ _ _ hstack' | take _ _ _ hstack' =>
    rw [hstack] at hstack'
    cases hstack'
    cases hf

section Ended

/-- A thread of which no code is left but that of the wake loop has ended. -/
structure EndedOk (s : State) : Prop where
  stack : ¬ s.Vacant → phase (body s.stack) ≠ .code → s.Ended s.currentRunningThread
  context : ∀ t k, (s.tcb t).context = some k → phase (body k) ≠ .code → s.Ended t

theorem phase_body (hf : f.isTimer = false) (hf' : f.isSystem = false) :
    phase (body (f :: k)) = f.phase := by
  rw [body_own hf hf']
  rfl

theorem EndedOk.epilogue (he : EndedOk s) (hstack : s.stack = f :: k)
    (hf : f.phase = .epilogue) : s.Ended s.currentRunningThread := by
  have htimer : f.isTimer = false ∧ f.isSystem = false := by
    cases f <;> first | exact ⟨rfl, rfl⟩ | cases hf
  refine he.stack (not_vacant hstack htimer.2) ?_
  rw [hstack, phase_body htimer.1 htimer.2, hf]
  simp

/-- A control move takes the last code from a thread only when it has ended. -/
theorem Control.ended (h : Control s m k b es) (hs : WellShaped s.stack) (he : EndedOk s)
    (hvacant : ¬ (b = true ∧ ∃ f : Frame, f.isSystem = true ∧ k = [f]))
    (hphase : phase (body k) ≠ .code) :
    .ended s.currentRunningThread ∈ es ∨ s.Ended s.currentRunningThread := by
  have hsame : body s.stack = body k → s.Ended s.currentRunningThread := by
    intro hbody
    exact he.stack (fun hv => hvacant (h.vacant hv)) (hbody ▸ hphase)
  have hcode : ∀ {f : Frame}, f.isCall = true → s.stack = f :: k → phase (body k) = .code := by
    intro f hf hstack
    rw [hstack] at hs
    rcases hs.below_inner hf with rfl | ⟨tid, -, rfl⟩ | ⟨c, -, rfl⟩ <;> rfl
  cases h with
  | finish => exact Or.inl (List.mem_cons_self ..)
  | wakeSkip _ _ _ hstack | wakeHit _ _ _ hstack | wakeEnd _ _ hstack | testHit _ _ _ hstack
  | testMiss _ _ _ hstack | take _ _ _ hstack =>
    exact Or.inr (he.epilogue hstack rfl)
  | expire => exact Or.inr (hsame rfl)
  | resumed _ hstack | handled _ hstack => exact Or.inr (hsame (by rw [hstack]; rfl))
  | sitBottom | idle => exact absurd ⟨rfl, _, rfl, rfl⟩ hvacant
  | nullReturn _ _ hstack | ret _ _ hstack | waitedNull _ hstack =>
    exact absurd (hcode rfl hstack) hphase
  | _ => exact absurd rfl hphase

theorem Trans.endedOk (h : Trans g s m s') (hr : Regular s) (he : EndedOk s) : EndedOk s' := by
  have hmono : ∀ {t}, s.Ended t → s'.Ended t := fun ht => h.ended_mono ht
  have hkept : ∀ t k, (s.tcb t).context = some k → phase (body k) ≠ .code → s'.Ended t :=
    fun t k hk hphase => hmono (he.context t k hk hphase)
  have hupdate : ∀ (u : Tid) (c : Tcb) (t : Tid) (k : List Frame),
      (Function.update s.tcb u c t).context = some k → phase (body k) ≠ .code →
      (c.context = some k → s'.Ended u) → s'.Ended t := by
    intro u c t k hk hphase hc
    by_cases ht : t = u
    · subst ht
      exact hc (by simpa only [Function.update_self] using hk)
    · rw [Function.update_of_ne ht] at hk
      exact hkept t k hk hphase
  cases h with
  | control m k b es h =>
    refine ⟨fun hvacant hphase => ?_, hkept⟩
    rcases h.ended hr.shaped.stack he hvacant hphase with hmem | hended
    · exact List.mem_append_left _ hmem
    · exact hmono hended
  | suspend q f k next store h =>
    refine ⟨fun hvacant => absurd ⟨rfl, _, by cases h <;> rfl, rfl⟩ hvacant, ?_⟩
    refine fun t k' hk' hphase => hupdate _ _ t k' hk' hphase fun hc => ?_
    cases hc
    cases h with
    | timer k hstack =>
      refine hmono (he.stack (not_vacant hstack rfl) ?_)
      rwa [hstack]
    | yield | wait | pass => exact absurd rfl hphase
  | fork f v p k k' b store hstack _ _ caller _ hk =>
    refine ⟨fun _ hphase => ?_, fun t k hk hphase => hupdate _ _ t k hk hphase (by simp)⟩
    rcases hk with ⟨-, rfl, -⟩ | ⟨-, rfl, -⟩ <;> exact absurd rfl hphase
  | join tid k slot hstack =>
    refine ⟨fun hvacant => absurd ⟨rfl, _, rfl, rfl⟩ hvacant, fun t k' hk' hphase => ?_⟩
    refine hupdate _ _ t k' hk' hphase fun hc => ?_
    cases hc
    exact absurd rfl hphase
  | exit val k hstack =>
    exact ⟨fun _ _ => List.mem_cons_self .., fun t k hk hphase =>
      hupdate _ _ t k hk hphase (by simp)⟩
  | leave k hstack =>
    refine ⟨fun _ _ => hmono (he.epilogue hstack rfl), fun t k hk hphase => ?_⟩
    exact hupdate _ _ t k hk hphase (by simp)
  | dispatchNew y t k store hstack =>
    refine ⟨fun _ hphase => absurd rfl hphase, fun u k' hk' hphase => ?_⟩
    exact hupdate _ _ u k' hk' hphase fun hc => hkept t k' hc hphase
  | dispatchOld y t k k' store hstack _ _ _ _ hcontext =>
    exact ⟨fun _ hphase => hkept t k' hcontext hphase, hkept⟩
  | sigWake c val lock k i t store store' hstack =>
    refine ⟨fun _ hphase => absurd rfl hphase, fun u k' hk' hphase => ?_⟩
    exact hupdate _ _ u k' hk' hphase fun hc => hkept t k' hc hphase
  | unlock _ _ _ hstack | lock _ _ _ hstack | semWake _ _ _ _ _ _ hstack
  | semValue _ _ _ _ _ hstack | semFree _ _ _ hstack | newLock _ hstack | newCond _ _ hstack
  | newSem _ _ hstack =>
    exact ⟨fun _ hphase => absurd rfl hphase, hkept⟩
  | record _ _ hstack | insertWhole _ _ _ _ _ hstack | insertCall _ _ _ _ _ _ hstack
  | inserting _ _ _ _ _ _ _ _ _ hstack | inserted _ _ _ _ _ _ _ hstack
  | counted _ _ _ _ _ _ hstack =>
    exact ⟨fun _ _ => hmono (he.epilogue hstack rfl), hkept⟩

theorem Initial.vacant (h : Initial s) : s.Vacant := by
  obtain ⟨a, f, v, p, store, ha, -, -, rfl⟩ := h.spec
  exact ⟨rfl, _, rfl, rfl⟩

theorem Initial.endedOk (h : Initial s) : EndedOk s := by
  obtain ⟨f, v, p, hb⟩ := h.begun
  refine ⟨fun hnot => absurd h.vacant hnot, fun t k hk => ?_⟩
  by_cases ht : t = 1
  · simp [hb.tcb, ht] at hk
  · simp [hb.tcb, Function.update_of_ne ht] at hk

end Ended

section Shifts

/-- What a move does to the queues when nothing is in the join table. -/
inductive Shift (s s' : State) : Prop
  | keep (hid : s'.gThreadID = s.gThreadID) (hcontents : s'.contents = s.contents)
      (hremoved : ∀ q, removedAt q s'.hist = removedAt q s.hist)
      (hcur : s'.currentRunningThread = s.currentRunningThread)
      (hvacant : s.Vacant → s'.Vacant)
      (hbody : body s.stack ≠ [] → body s'.stack ≠ [] ∨ s'.Ended s.currentRunningThread) :
      Shift s s'
  | suspend (q : QRef) (hid : s'.gThreadID = s.gThreadID)
      (hq : q = .ready s.current.priority ∨ WaitQueues q)
      (hvacant : ¬ s.Vacant) (hvacant' : s'.Vacant)
      (hcontents : s'.contents = Levels.append s.contents q s.currentRunningThread)
      (hcur : s'.currentRunningThread = s.currentRunningThread)
      (hhist : s'.hist = .inserted q s.currentRunningThread :: s.hist) : Shift s s'
  | fork (p : ℤ) (hp : 0 ≤ p) (hvacant : ¬ s.Vacant) (hbody : body s'.stack ≠ [])
      (hcontents : s'.contents = Levels.append s.contents (.ready p) (s.gThreadID + 1))
      (hcur : s'.currentRunningThread = s.currentRunningThread)
      (hid : s'.gThreadID = s.gThreadID + 1) (hpriority : (s'.tcb (s.gThreadID + 1)).priority = p)
      (hremoved : ∀ q, removedAt q s'.hist = removedAt q s.hist) : Shift s s'
  | wake (q : QRef) (p : ℤ) (t : Tid) (rest : List Tid) (hid : s'.gThreadID = s.gThreadID)
      (hq : WaitQueues q) (hvacant : ¬ s.Vacant) (hbody : body s'.stack ≠ [])
      (hhead : s.contents q = t :: rest)
      (hcontents : s'.contents = Levels.append (Levels.set s.contents q rest) (.ready p) t)
      (hcur : s'.currentRunningThread = s.currentRunningThread)
      (hhist : s'.hist = .inserted (.ready p) t :: .removed q t :: s.hist) : Shift s s'
  | dispatch (y : ℤ) (t : Tid) (rest : List Tid) (hid : s'.gThreadID = s.gThreadID)
      (hbody : body s.stack = [])
      (hhead : s.contents (.ready y) = t :: rest)
      (hhigh : ∀ p, y < p → s.contents (.ready p) = [])
      (hcontents : s'.contents = Levels.set s.contents (.ready y) rest)
      (hcur : s'.currentRunningThread = t)
      (hstack : s'.stack = [.start] ∨ (s.tcb t).context = some s'.stack)
      (hremoved : ∀ q, removedAt q s'.hist =
        if .ready y = q then removedAt q s.hist ++ [t] else removedAt q s.hist) : Shift s s'

/-- Each move is a shift. -/
theorem Trans.shift (h : Trans g s m s') (hr : Regular s) (hj : JoinFree s)
    (he : EndedOk s) (hq : QueuesOk AllQueues s) : Shift s s' := by
  have hq' : QueuesOk AllQueues s' := h.queuesOk hq hj.steady
  have hsame : (∀ q, insertedAt q s'.hist = insertedAt q s.hist ∧
      removedAt q s'.hist = removedAt q s.hist) → s'.contents = s.contents :=
    fun h => contents_same (f := id) hq hq' h
  have hkeep : ∀ {f : Frame} {k : List Frame}, s.stack = f :: k → f.isSystem = false →
      (∀ q, insertedAt q s'.hist = insertedAt q s.hist ∧
        removedAt q s'.hist = removedAt q s.hist) →
      s'.currentRunningThread = s.currentRunningThread → s'.gThreadID = s.gThreadID →
      (body s.stack ≠ [] → body s'.stack ≠ [] ∨ s'.Ended s.currentRunningThread) →
      Shift s s' := by
    intro f k hstack hf hhist hcur hid hbody
    exact .keep hid (hsame hhist) (fun q => (hhist q).2) hcur
      (fun hv => absurd hv (not_vacant hstack hf)) hbody
  have hbelow : ∀ {y : ℤ}, scan s.threadLevelCount 128 = some y →
      ∀ p, y < p → s.contents (.ready p) = [] := by
    intro y hscan p hp
    exact hq.levels_empty fun _ hlt => (scan_spec hscan).2.2.2 p hp hlt
  cases h with
  | control m k b es h =>
    have hhist : ∀ q, insertedAt q (es ++ s.hist) = insertedAt q s.hist ∧
        removedAt q (es ++ s.hist) = removedAt q s.hist :=
      fun q => by cases h <;> exact ⟨rfl, rfl⟩
    refine .keep rfl (hsame hhist) (fun q => (hhist q).2) rfl h.vacant fun hne =>
      Or.inl fun hnil => ?_
    exact hne (h.body_nil hr.shaped.stack hnil).1
  | suspend q f k next store h =>
    have hcontents := contents_append (f := id) (i := q) (t := s.currentRunningThread) hq hq'
      (fun r => by simp [removedAt]) fun r => by simp [insertedAt]
    cases h with
    | yield _ hstack | timer _ hstack =>
      exact .suspend _ rfl (Or.inl rfl) (not_vacant hstack rfl) ⟨rfl, _, rfl, rfl⟩ hcontents rfl rfl
    | wait _ _ hstack | pass _ _ _ hstack =>
      exact .suspend _ rfl (Or.inr (by simp [WaitQueues])) (not_vacant hstack rfl)
        ⟨rfl, _, rfl, rfl⟩
        hcontents rfl rfl
  | fork f v p k k' b store hstack hslot _ caller _ hk =>
    have hcontents := contents_append (f := id) (i := .ready p) (t := s.gThreadID + 1) hq hq'
      (fun r => by simp [removedAt]) fun r => by simp [insertedAt]
    refine .fork p (hasSlot_ready hslot).1 (not_vacant hstack rfl) ?_ hcontents rfl rfl (by simp)
      (fun q => by simp [removedAt])
    rcases hk with ⟨-, rfl, -⟩ | ⟨-, rfl, -⟩ <;> exact body_own_ne_nil rfl rfl
  | join tid k slot hstack => cases hj.top hstack
  | sigWake c val lock k i t store store' hstack =>
    obtain ⟨rest, hhead, hcontents⟩ := contents_move (q := .cond c i)
      (r := .ready (s.tcb t).priority) (t := t) hq hq' (by simp) rfl
    exact .wake _ _ t rest rfl (by simp [WaitQueues]) (not_vacant hstack rfl)
      (body_own_ne_nil rfl rfl) hhead hcontents rfl rfl
  | semWake i k v t store store' hstack =>
    obtain ⟨rest, hhead, hcontents⟩ := contents_move (q := .sem i)
      (r := .ready s.current.priority) (t := t) hq hq' (by simp) rfl
    exact .wake _ _ t rest rfl (by simp [WaitQueues]) (not_vacant hstack rfl)
      (body_own_ne_nil rfl rfl) hhead hcontents rfl rfl
  | exit val k hstack =>
    exact hkeep hstack rfl (fun _ => ⟨rfl, rfl⟩) rfl rfl fun _ => Or.inr (List.mem_cons_self ..)
  | leave k hstack =>
    exact hkeep hstack rfl (fun _ => ⟨rfl, rfl⟩) rfl rfl fun _ => Or.inr (he.epilogue hstack rfl)
  | insertWhole _ _ _ _ _ hstack | insertCall _ _ _ _ _ _ hstack
  | inserting _ _ _ _ _ _ _ _ _ hstack | inserted _ _ _ _ _ _ _ hstack
  | counted _ _ _ _ _ _ hstack =>
    cases hj.top hstack
  | dispatchNew y t k store hstack hscan =>
    obtain ⟨rest, hhead, hcontents⟩ := contents_take (f := id) (i := .ready y) (t := t) hq hq'
      (fun r => by simp [insertedAt]) fun r => by simp [removedAt]
    exact .dispatch y t rest rfl (by rw [hstack]; rfl) hhead (hbelow hscan) hcontents rfl
      (Or.inl rfl)
      fun q => by simp [removedAt]
  | dispatchOld y t k k' store hstack hscan _ _ _ hcontext =>
    obtain ⟨rest, hhead, hcontents⟩ := contents_take (f := id) (i := .ready y) (t := t) hq hq'
      (fun r => by simp [insertedAt]) fun r => by simp [removedAt]
    exact .dispatch y t rest rfl (by rw [hstack]; rfl) hhead (hbelow hscan) hcontents rfl
      (Or.inr hcontext) fun q => by simp [removedAt]
  | semValue op _ _ _ _ hstack _ hop =>
    rcases hop with ⟨rfl, -⟩ | ⟨rfl, -⟩ <;>
      exact hkeep hstack rfl (fun _ => ⟨rfl, rfl⟩) rfl rfl fun _ => Or.inl (body_own_ne_nil rfl rfl)
  | unlock _ _ _ hstack | lock _ _ _ hstack | semFree _ _ _ hstack
  | newLock _ hstack | newCond _ _ hstack | newSem _ _ hstack | record _ _ hstack =>
    exact hkeep hstack rfl (fun _ => ⟨rfl, rfl⟩) rfl rfl fun _ => Or.inl (body_own_ne_nil rfl rfl)

end Shifts

section Standing

/-- Every thread stands in the queues at most once, the running thread nowhere. -/
structure Standing (s : State) : Prop where
  once : ∀ t, Absent s.contents t ∨ ∃ q, Once s.contents q t
  current : ¬ s.Vacant → Absent s.contents s.currentRunningThread

theorem Standing.of_mem (hs : Standing s) (ht : t ∈ s.contents q) : Once s.contents q t := by
  rcases hs.once t with habsent | ⟨r, honce⟩
  · exact absurd ht (habsent q)
  · have hqr : q = r := by
      by_contra hne
      exact honce.2 q hne ht
    rwa [hqr]

theorem Standing.nodup (hs : Standing s) (q : QRef) : (s.contents q).Nodup := by
  rw [List.nodup_iff_count_le_one]
  intro t
  by_cases ht : t ∈ s.contents q
  · exact le_of_eq (hs.of_mem ht).1
  · simp [List.count_eq_zero.mpr ht]

theorem TidsOk.absent_next (ht : TidsOk s) : Absent s.contents (s.gThreadID + 1) :=
  fun _ hmem => absurd (ht.booked.fits_of_mem hmem) (not_le_of_gt (lt_next _))

theorem Shift.standing (h : Shift s s') (ht : TidsOk s) (hs : Standing s) : Standing s' := by
  have happend : ∀ {R : Levels QRef Tid} {q : QRef} {u : Tid},
      (∀ t, t ≠ u → Absent R t ∨ ∃ r, Once R r t) → Absent R u →
      ∀ t, Absent (R.append q u) t ∨ ∃ r, Once (R.append q u) r t := by
    intro R q u hrest hu t
    by_cases htu : t = u
    · subst htu
      exact Or.inr ⟨q, hu.append⟩
    · simp only [absent_append_iff htu, once_append_iff htu]
      exact hrest t htu
  have htake : ∀ {q : QRef} {u : Tid} {rest : List Tid}, s.contents q = u :: rest →
      ∀ t, t ≠ u → Absent (Levels.set s.contents q rest) t ∨
        ∃ r, Once (Levels.set s.contents q rest) r t := by
    intro q u rest hhead t ht
    simp only [absent_take_iff hhead ht, once_take_iff hhead ht]
    exact hs.once t
  have htaken : ∀ {q : QRef} {u : Tid} {rest : List Tid}, s.contents q = u :: rest →
      Absent (Levels.set s.contents q rest) u :=
    fun hhead => (hs.of_mem (hhead ▸ List.mem_cons_self ..)).take hhead
  cases h with
  | keep _ hcontents _ hcur hvacant =>
    refine ⟨fun t => by rw [hcontents]; exact hs.once t, fun hnot => ?_⟩
    rw [hcontents, hcur]
    exact hs.current fun hv => hnot (hvacant hv)
  | suspend q _ _ hvacant hvacant' hcontents hcur =>
    refine ⟨?_, fun hnot => absurd hvacant' hnot⟩
    rw [hcontents]
    exact happend (fun t _ => hs.once t) (hs.current hvacant)
  | fork p _ hvacant _ hcontents hcur =>
    have hne : s.currentRunningThread ≠ s.gThreadID + 1 :=
      ne_of_lt (lt_of_le_of_lt ht.current (lt_next _))
    refine ⟨?_, fun _ => ?_⟩
    · rw [hcontents]
      exact happend (fun t _ => hs.once t) ht.absent_next
    · rw [hcontents, hcur]
      exact (absent_append_iff hne).mpr (hs.current hvacant)
  | wake q p u rest _ _ hvacant _ hhead hcontents hcur =>
    have hne : s.currentRunningThread ≠ u := by
      intro heq
      exact hs.current hvacant q (heq ▸ hhead ▸ List.mem_cons_self ..)
    refine ⟨?_, fun _ => ?_⟩
    · rw [hcontents]
      exact happend (htake hhead) (htaken hhead)
    · rw [hcontents, hcur]
      exact (absent_append_iff hne).mpr ((absent_take_iff hhead hne).mpr (hs.current hvacant))
  | dispatch y u rest _ _ hhead _ hcontents hcur =>
    refine ⟨fun t => ?_, fun _ => ?_⟩
    · rw [hcontents]
      by_cases htu : t = u
      · exact Or.inl (htu ▸ htaken hhead)
      · exact htake hhead t htu
    · rw [hcontents, hcur]
      exact htaken hhead

/-- At the start only the first thread is in a queue. -/
theorem Begun.contents {f : ThreadFunc} {v : AnyPtr} {p : ℤ} (hb : Begun s f v p)
    (hq : QueuesOk AllQueues s) : s.contents = Levels.append (fun _ => []) (.ready p) 1 := by
  funext q
  have hledger := (hq.contents (q := q) trivial).2
  rw [hb.hist] at hledger
  by_cases hqp : q = .ready p
  · subst hqp
    simpa [insertedAt, removedAt, Levels.append] using hledger.symm
  · rw [Levels.append, Levels.set_of_ne hqp]
    simpa [insertedAt, removedAt, Ne.symm hqp] using hledger.symm

theorem absent_empty : Absent (fun _ : QRef => ([] : List Tid)) t := fun _ => List.not_mem_nil

theorem Initial.standing (h : Initial s) : Standing s := by
  have hq : QueuesOk AllQueues s := h.queuesOk
  obtain ⟨f, v, p, hb⟩ := h.begun
  refine ⟨fun t => ?_, fun hnot => absurd h.vacant hnot⟩
  rw [hb.contents hq]
  by_cases ht : t = 1
  · subst ht
    exact Or.inr ⟨.ready p, absent_empty.append⟩
  · exact Or.inl ((absent_append_iff ht).mpr absent_empty)

end Standing

/-- What holds throughout a run without `t_join` calls. -/
structure Unjoined (s : State) : Prop where
  regular : Regular s
  joinFree : JoinFree s
  ended : EndedOk s
  queues : QueuesOk AllQueues s
  tids : TidsOk s
  standing : Standing s

theorem Unjoined.shift (h : Unjoined s) (ht : Trans g s m s') : Shift s s' :=
  ht.shift h.regular h.joinFree h.ended h.queues

theorem Trans.unjoined (h : Trans g s m s') (hm : NoJoins m s) (hu : Unjoined s) :
    Unjoined s' where
  regular := h.regular hu.regular
  joinFree := h.joinFree hu.joinFree hm
  ended := h.endedOk hu.regular hu.ended
  queues := h.queuesOk hu.queues hu.joinFree.steady
  tids := h.tidsOk hu.queues hu.tids
  standing := (hu.shift h).standing hu.tids hu.standing

theorem Initial.unjoined (h : Initial s) : Unjoined s :=
  ⟨h.regular, h.joinFree, h.endedOk, h.queuesOk, h.tidsOk, h.standing⟩

theorem unjoined_of_run {s₀ : State} (h₀ : Initial s₀) (hrun : Run (step g) NoJoins s₀ s) :
    Unjoined s :=
  hrun.invariant h₀.unjoined fun _ _ _ hu hm hstep => (step_trans hstep).unjoined hm hu

end UserThreads.Threads
