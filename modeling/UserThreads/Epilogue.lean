import UserThreads.QueueLedger

/-!
The epilogue of `incrementStack`: what it executes, with the timer on, from the
return of `userFunction` to its last `longjmp`. Its locals `i`, `waked` and
`threadTcb` lie in a frame directly under that of `Scheduler`, at one address for
all threads, so a preemption there lets whatever runs next overwrite them. The
program points keep them instead. What depends on them is therefore stated for
the runs in which the timer leaves the epilogue whole. In such a run an epilogue
stands alone on the stack, and no context is saved in one.
-/
namespace UserThreads.Threads

open LinkedCells Queue Runs

/-- What is on the processor: code of a thread, the epilogue of one that has
returned from its function, or no thread. -/
inductive Phase
  | code
  | epilogue
  | system
deriving DecidableEq

def Frame.phase : Frame → Phase
  | .wake .. | .wakeTest .. | .wakeTake .. | .insert .. | .inserting .. | .leave => .epilogue
  | .sitBottom | .sched | .done => .system
  | _ => .code

def phase : List Frame → Phase
  | [] => .system
  | f :: _ => f.phase

/-- The timer does not fire in the epilogue of `incrementStack`. -/
def EpilogueWhole (m : Move) (s : State) : Prop := m = .expire → phase s.stack ≠ .epilogue

instance (m : Move) (s : State) : Decidable (EpilogueWhole m s) :=
  inferInstanceAs (Decidable (_ → _))

/-- The running thread executes its epilogue. -/
def InEpilogue (m : Move) (s : State) : Prop := m = .exec ∧ phase s.stack = .epilogue

instance (m : Move) (s : State) : Decidable (InEpilogue m s) :=
  inferInstanceAs (Decidable (_ ∧ _))

/-- Frames of this kind make up the whole stack, and no context has one. -/
structure StandsAlone (kind : Frame → Prop) (s : State) : Prop where
  stack : ∀ f ∈ s.stack, kind f → s.stack = [f]
  context : ∀ t k, (s.tcb t).context = some k → ∀ f ∈ k, ¬ kind f

abbrev EpilogueAlone : State → Prop := StandsAlone fun f => f.phase = .epilogue

/-- What has been found out when the wake loop gets to take a thread. -/
structure LoopFrames (s : State) : Prop where
  take : ∀ i k, s.stack = .wakeTake i :: k → joinTarget s i = s.currentRunningThread
  insert : ∀ i t k, s.stack = .insert i t :: k →
    s.tcbWaiting i = some t ∧ (s.tcb t).waitingForTid = s.currentRunningThread

variable {g : Grain} {s s' : State} {m : Move} {f f' : Frame} {k : List Frame}
  {kind : Frame → Prop}

theorem Atomic.epilogueWhole (h : Atomic m s) : EpilogueWhole m s := by
  intro hm hphase
  rw [h hm] at hphase
  cases hphase

theorem Frame.isBase_of_epilogue (hf : f.phase = .epilogue) : f.isBase = true := by
  cases f <;> first | rfl | cases hf

theorem Frame.phase_of_isResume (hf : f.isResume = true) : f.phase = .code := by
  cases f <;> first | rfl | cases hf

theorem StandsAlone.not_below (ha : StandsAlone kind s) (hstack : s.stack = f :: k)
    (hmem : f' ∈ k) : ¬ kind f' := by
  intro hf
  have halone := ha.stack f' (by simp [hstack, hmem]) hf
  rw [hstack] at halone
  cases halone
  cases hmem

/-- The epilogue goes on by itself. -/
theorem Trans.epilogue_next (h : Trans g s m s') (hm : m ≠ .expire) (hstack : s.stack = [f])
    (hf : f.phase = .epilogue) : ∃ f', s'.stack = [f'] := by
  have hno : ∀ {f' : Frame} {k' : List Frame}, s.stack = f' :: k' → f'.phase ≠ .epilogue →
      False := by
    intro f' k' hstack' hf'
    rw [hstack] at hstack'
    cases hstack'
    exact hf' hf
  cases h with
  | control m k b es h =>
    cases h with
    | expire => exact absurd rfl hm
    | finish | start | wakeSkip | wakeHit | wakeEnd | testHit | testMiss | take | sitBottom
    | idle =>
      exact ⟨_, rfl⟩
    | enable f k hstack' hf' =>
      exact (hno hstack' (by rcases hf' with rfl | rfl | rfl <;> simp [Frame.phase])).elim
    | call _ hstack' | joinDone _ _ hstack' | waitLock _ _ _ hstack' | waitNull _ _ hstack'
    | sigNone _ _ _ _ hstack' | sigEmpty _ _ _ _ _ hstack' | acquire _ _ hstack'
    | nullReturn _ _ hstack' | ret _ _ hstack' | forked _ _ hstack' | joined _ _ hstack'
    | waitedNull _ hstack' | waitedLock _ _ hstack' | spinBusy _ _ _ hstack'
    | spinFree _ _ hstack' | resumed _ hstack' | handled _ hstack' =>
      exact (hno hstack' (by simp [Frame.phase])).elim
  | suspend | join | exit | leave | record | insertWhole | insertCall | inserting | inserted
  | counted | dispatchNew =>
    exact ⟨_, rfl⟩
  | fork _ _ _ _ _ _ _ hstack' | unlock _ _ _ hstack' | lock _ _ _ hstack'
  | sigWake _ _ _ _ _ _ _ _ hstack' | semWake _ _ _ _ _ _ hstack' | semValue _ _ _ _ _ hstack'
  | semFree _ _ _ hstack' | newLock _ hstack' | newCond _ _ hstack' | newSem _ _ hstack'
  | dispatchOld _ _ _ _ _ hstack' =>
    exact (hno hstack' (by simp [Frame.phase])).elim

/-- Frames of the epilogue at which the timer does not fire stay alone on the stack. -/
theorem Trans.alone_stack (h : Trans g s m s') (hkind : ∀ f, kind f → f.phase = .epilogue)
    (hexpire : m = .expire → ∀ f, s.stack = [f] → ¬ kind f) (ha : StandsAlone kind s)
    (hmem : f ∈ s'.stack) (hf : kind f) : s'.stack = [f] := by
  rcases h.mentions (Frame.isBase_of_epilogue (hkind f hf)) (Or.inl hmem) with hold | htop
  · rcases hold with hold | ⟨t, k, hk, hold⟩
    · have hstack := ha.stack f hold hf
      have hm : m ≠ .expire := fun hm => hexpire hm f hstack hf
      obtain ⟨f', hstack'⟩ := h.epilogue_next hm hstack (hkind f hf)
      rw [hstack'] at hmem ⊢
      rw [List.mem_singleton.mp hmem]
    · exact absurd hf (ha.context t k hk f hold)
  · exact htop

theorem Trans.standsAlone (h : Trans g s m s') (hkind : ∀ f, kind f → f.phase = .epilogue)
    (hexpire : m = .expire → ∀ f, s.stack = [f] → ¬ kind f) (hs : Shaped s)
    (ha : StandsAlone kind s) : StandsAlone kind s' where
  stack _ hmem hf := h.alone_stack hkind hexpire ha hmem hf
  context t k hk f hmem := by
    rcases h.context_tail hk with hold | htail
    · exact ha.context t k hold f hmem
    · cases (h.shaped hs).context t k hk with
      | @intro f' k' hres hw =>
        rcases List.mem_cons.mp hmem with rfl | hmem
        · intro hf
          have hphase := hkind _ hf
          rw [Frame.phase_of_isResume hres] at hphase
          cases hphase
        · have hmem' : f ∈ s.stack.tail := htail ▸ hmem
          cases hstack : s.stack with
          | nil => simp [hstack] at hmem'
          | cons f'' k'' => exact ha.not_below hstack (by simpa [hstack] using hmem')

theorem Trans.epilogueAlone (h : Trans g s m s') (hwhole : EpilogueWhole m s) (hs : Shaped s)
    (ha : EpilogueAlone s) : EpilogueAlone s' :=
  h.standsAlone (fun _ => id) (fun hm f hstack hf => hwhole hm (by rw [hstack]; exact hf)) hs ha

/-- At the start only `Scheduler` is on the stack, and no context has been saved. -/
theorem Initial.standsAlone (h : Initial s) (hsched : ¬ kind .sched) : StandsAlone kind s := by
  obtain ⟨f, v, p, hb⟩ := h.begun
  constructor
  · intro f hf hk
    rw [hb.stack, List.mem_singleton] at hf
    subst hf
    exact absurd hk hsched
  · intro t k hk
    by_cases ht : t = 1
    · simp [hb.tcb, ht] at hk
    · simp [hb.tcb, Function.update_of_ne ht] at hk

/-- How the wake loop gets to the taking of a thread. -/
theorem Trans.loop_top (h : Trans g s m s') (ha : EpilogueAlone s) :
    (∀ i k, s'.stack = .wakeTake i :: k → s'.tcb = s.tcb ∧ s'.tcbWaiting = s.tcbWaiting ∧
      s'.currentRunningThread = s.currentRunningThread ∧
        s.currentRunningThread = joinTarget s i) ∧
    ∀ i t k, s'.stack = .insert i t :: k → s'.tcb = s.tcb ∧ s'.tcbWaiting = s.tcbWaiting ∧
      s'.currentRunningThread = s.currentRunningThread ∧
        s.tcbWaiting i = some t ∧ ∃ k, s.stack = .wakeTake i :: k := by
  have hpop : ∀ {f : Frame}, s.stack = f :: s'.stack →
      ∀ f k, s'.stack = f :: k → f.phase ≠ .epilogue := by
    intro f hstack f' k hstack'
    exact ha.not_below hstack (hstack' ▸ List.mem_cons_self ..)
  cases h with
  | control m k b es h =>
    cases h with
    | testHit i waked k hstack htarget =>
      exact ⟨fun j k' hk => by cases hk; exact ⟨rfl, rfl, rfl, htarget⟩, by simp⟩
    | take i t k hstack hslot =>
      exact ⟨by simp, fun j u k' hk => by cases hk; exact ⟨rfl, rfl, rfl, hslot, k, hstack⟩⟩
    | nullReturn _ _ hstack | ret _ _ hstack | waitedNull _ hstack | handled _ hstack =>
      exact ⟨fun i k hk => absurd rfl (hpop hstack _ _ hk),
        fun i t k hk => absurd rfl (hpop hstack _ _ hk)⟩
    | _ => exact ⟨by simp, by simp⟩
  | suspend _ _ _ _ _ h => cases h <;> exact ⟨by simp, by simp⟩
  | fork _ _ _ _ _ _ _ _ _ _ _ _ hk =>
    rcases hk with ⟨-, rfl, -⟩ | ⟨-, rfl, -⟩ <;> exact ⟨by simp, by simp⟩
  | dispatchOld _ t _ k' _ _ _ _ _ _ hcontext =>
    have hresume : ∀ f k, k' = f :: k → f.phase ≠ .epilogue := fun f k hk =>
      ha.context t k' hcontext f (hk ▸ List.mem_cons_self ..)
    exact ⟨fun i k hk => absurd rfl (hresume _ _ hk), fun i t k hk => absurd rfl (hresume _ _ hk)⟩
  | _ => exact ⟨by simp, by simp⟩

theorem Trans.loopFrames (h : Trans g s m s') (ha : EpilogueAlone s) (hl : LoopFrames s) :
    LoopFrames s' := by
  obtain ⟨htake, hinsert⟩ := h.loop_top ha
  constructor
  · intro i k hk
    obtain ⟨htcb, htable, hcur, htarget⟩ := htake i k hk
    rw [joinTarget, htcb, htable, hcur, htarget, joinTarget]
  · intro i t k hk
    obtain ⟨htcb, htable, hcur, hslot, k', hstack⟩ := hinsert i t k hk
    have htarget := hl.take i k' hstack
    rw [joinTarget, hslot] at htarget
    rw [htcb, htable, hcur]
    exact ⟨hslot, htarget⟩

theorem Initial.loopFrames (h : Initial s) : LoopFrames s := by
  obtain ⟨f, v, p, hb⟩ := h.begun
  constructor
  · intro i k hk
    rw [hb.stack] at hk
    cases hk
  · intro i t k hk
    rw [hb.stack] at hk
    cases hk

end UserThreads.Threads
