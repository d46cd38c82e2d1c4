import UserThreads.ReadyQueues

/-!
The ready queues with `q_insert` of the wake loop executed statement by
statement. That loop runs in the thread that has ended, with the timer on. As
long as the timer does not fire between the first and the last statement of an
insertion, the queues are those of a state in which the insertion is finished.
So they are right whenever `Scheduler` begins its scan, if the timer leaves the
epilogue whole.
-/
namespace UserThreads.Threads

open LinkedCells Queue Runs MultilevelQueue

/-- The wake loop is inside `q_insert`, or before the increment of the counter. -/
def Frame.isInserting : Frame → Bool
  | .inserting .. => true
  | _ => false

/-- The timer does not fire while the wake loop is inside an insertion. -/
def NoSplit (m : Move) (s : State) : Prop :=
  m = .expire → s.stack.head?.any Frame.isInserting = false

instance (m : Move) (s : State) : Decidable (NoSplit m s) := inferInstanceAs (Decidable (_ → _))

theorem EpilogueWhole.noSplit {m : Move} {s : State} (h : EpilogueWhole m s) : NoSplit m s := by
  intro hm
  have hphase := h hm
  cases hstack : s.stack with
  | nil => rfl
  | cons f k =>
    rw [hstack] at hphase
    cases f <;> first | rfl | exact absurd rfl hphase

/-- The statements of `q_insert` from a program point to its end. -/
def finishInsert (q : QRef) (a : Addr) : InsertPoint → Store QRef Tid → Option (Store QRef Tid)
  | .tailNext, st => do
    let st ← st.setTailNext q a
    let st ← st.setTail q a
    let st ← st.linkHead q a
    st.incNumObj q
  | .tail, st => do
    let st ← st.setTail q a
    let st ← st.linkHead q a
    st.incNumObj q
  | .noHead, st => do
    let st ← st.linkHead q a
    st.incNumObj q
  | .head, st => do
    let st ← st.setHead q a
    st.incNumObj q
  | .numObj, st => st.incNumObj q
  | .count, st => some st

/-- The second state is the first one with its insertion finished. -/
inductive Settles (s : State) : State → Prop
  | still (h : ∀ f ∈ s.stack, f.isInserting = false) : Settles s s
  | rest (pc : InsertPoint) (i : ℕ) (t : Tid) (p : ℤ) (a : Addr) (store : Store QRef Tid)
      (hstack : s.stack = [.inserting pc i t p a])
      (hstore : finishInsert (.ready p) a pc s.store = some store) :
      Settles s { s with
        store := store, stack := [.wake (i + 1) true]
        counter := Function.update s.counter (.ready p) (s.counter (.ready p) + 1)
        hist := if pc = .count then s.hist else .inserted (.ready p) t :: s.hist }

/-- An insertion is in progress only at the top of the stack, and once it is
finished all queues are right. -/
structure Sound (s : State) : Prop where
  stack : ∀ f ∈ s.stack, f.isInserting = true → s.stack = [f]
  context : ∀ t k, (s.tcb t).context = some k → ∀ f ∈ k, f.isInserting = false
  settled : ∃ u, Settles s u ∧ QueuesOk AllQueues u

variable {s s' : State} {m : Move} {f : Frame} {t : Tid} {pc pc' : InsertPoint} {i : ℕ} {p : ℤ}
  {a : Addr} {k : List Frame}

theorem Frame.phase_of_isInserting (hf : f.isInserting = true) : f.phase = .epilogue := by
  cases f <;> first | rfl | cases hf

theorem Sound.alone (h : Sound s) : StandsAlone (fun f => f.isInserting = true) s :=
  ⟨h.stack, fun t k hk f hmem => by simp [h.context t k hk f hmem]⟩

/-- Outside an insertion the state is settled. -/
theorem Sound.queues (h : Sound s) (hnot : ∀ f ∈ s.stack, f.isInserting = false) :
    QueuesOk AllQueues s := by
  obtain ⟨u, hu, hq⟩ := h.settled
  cases hu with
  | still => exact hq
  | rest pc i t p a store hstack =>
    have hins := hnot (.inserting pc i t p a) (by simp [hstack])
    cases hins

/-- The steps of the wake loop that insert. -/
inductive InsertStep (s : State) : Frame → State → Prop
  | call (i : ℕ) (t : Tid) (store : Store QRef Tid) (linked : Bool)
      (hslot : s.cap.hasSlot (.ready (s.tcb t).priority) = true)
      (hnew : s.store.newObj s.fresh t = some store)
      (hlinked : store.hasTail (.ready (s.tcb t).priority) = some linked) :
      InsertStep s (.insert i t) { s with
        store := store, fresh := s.fresh + 1
        stack := [.inserting (if linked then .tailNext else .tail) i t (s.tcb t).priority s.fresh] }
  | go (pc pc' : InsertPoint) (i : ℕ) (t : Tid) (p : ℤ) (a : Addr) (store : Store QRef Tid)
      (h : Inserts s i t p a pc store pc') :
      InsertStep s (.inserting pc i t p a)
        { s with store := store, stack := [.inserting pc' i t p a] }
  | linked (i : ℕ) (t : Tid) (p : ℤ) (a : Addr) (store : Store QRef Tid)
      (h : s.store.incNumObj (.ready p) = some store) :
      InsertStep s (.inserting .numObj i t p a) { s with
        store := store, stack := [.inserting .count i t p a]
        hist := .inserted (.ready p) t :: s.hist }
  | counted (i : ℕ) (t : Tid) (p : ℤ) (a : Addr) :
      InsertStep s (.inserting .count i t p a) { s with
        stack := [.wake (i + 1) true]
        counter := Function.update s.counter (.ready p) (s.counter (.ready p) + 1) }

theorem Trans.insertStep (h : Trans .statement s m s') (hm : m ≠ .expire)
    (hstack : s.stack = f :: k) (hf : f.inserts = true) : InsertStep s f s' := by
  have hno : ∀ {f' : Frame} {k' : List Frame}, s.stack = f' :: k' → f'.inserts = false →
      False := by
    intro f' k' hstack' hf'
    rw [hstack] at hstack'
    cases hstack'
    rw [hf] at hf'
    cases hf'
  have htop : ∀ {f' : Frame} {k' : List Frame}, s.stack = f' :: k' → f = f' := by
    intro f' k' hstack'
    rw [hstack] at hstack'
    exact (List.cons.inj hstack').1
  cases h with
  | insertCall i t _ store linked _ hstack' hslot hnew hlinked =>
    exact htop hstack' ▸ .call i t store linked hslot hnew hlinked
  | inserting pc pc' i t p a _ store _ hstack' h =>
    exact htop hstack' ▸ .go pc pc' i t p a store h
  | inserted i t p a _ store _ hstack' h => exact htop hstack' ▸ .linked i t p a store h
  | counted i t p a _ _ hstack' => exact htop hstack' ▸ .counted i t p a
  | insertWhole _ _ _ _ hgrain => cases hgrain
  | control m k b es h =>
    exfalso
    cases h with
    | expire => exact hm rfl
    | enable f k hstack' hf => exact hno hstack' (by rcases hf with rfl | rfl | rfl <;> rfl)
    | call _ hstack' | finish hstack' | joinDone _ _ hstack' | waitLock _ _ _ hstack'
    | waitNull _ _ hstack' | sigNone _ _ _ _ hstack' | sigEmpty _ _ _ _ _ hstack'
    | acquire _ _ hstack' | nullReturn _ _ hstack' | ret _ _ hstack' | forked _ _ hstack'
    | joined _ _ hstack' | waitedNull _ hstack' | waitedLock _ _ hstack'
    | spinBusy _ _ _ hstack' | spinFree _ _ hstack' | resumed _ hstack' | handled _ hstack'
    | start _ hstack' | wakeSkip _ _ _ hstack' | wakeHit _ _ _ hstack' | wakeEnd _ _ hstack'
    | testHit _ _ _ hstack' | testMiss _ _ _ hstack' | take _ _ _ hstack' | sitBottom _ hstack'
    | idle _ hstack' =>
      exact hno hstack' rfl
  | suspend q f k next store h =>
    exfalso
    cases h with
    | yield _ hstack' | timer _ hstack' | wait _ _ hstack' | pass _ _ _ hstack' =>
      exact hno hstack' rfl
  | fork _ _ _ _ _ _ _ hstack' | join _ _ _ hstack' | unlock _ _ _ hstack' | lock _ _ _ hstack'
  | sigWake _ _ _ _ _ _ _ _ hstack' | semWake _ _ _ _ _ _ hstack' | semValue _ _ _ _ _ hstack'
  | semFree _ _ _ hstack' | newLock _ hstack' | newCond _ _ hstack' | newSem _ _ hstack'
  | exit _ _ hstack' | leave _ hstack' | record _ _ hstack' | dispatchNew _ _ _ _ hstack'
  | dispatchOld _ _ _ _ _ hstack' =>
    exact (hno hstack' rfl).elim

/-- A statement of the insertion does not change what the finished insertion is. -/
theorem Inserts.finish {store : Store QRef Tid} (h : Inserts s i t p a pc store pc') :
    finishInsert (.ready p) a pc s.store = finishInsert (.ready p) a pc' store ∧
      pc ≠ .count ∧ pc' ≠ .count := by
  cases h with
  | tailNext _ h | tail _ h | head _ h => exact ⟨by simp [finishInsert, h], by simp, by simp⟩
  | noHead first h =>
    cases first <;> exact ⟨by simp [finishInsert, Store.linkHead, h], by simp, by simp⟩

/-- The steps of an insertion lead to the same finished state. -/
theorem InsertStep.settles {u : State} (h : InsertStep s (.inserting pc i t p a) s')
    (hstack : s.stack = [.inserting pc i t p a]) (hu : Settles s u) : Settles s' u := by
  obtain ⟨last, hlast, rfl⟩ : ∃ store,
      finishInsert (.ready p) a pc s.store = some store ∧ u = { s with
        store := store, stack := [.wake (i + 1) true]
        counter := Function.update s.counter (.ready p) (s.counter (.ready p) + 1)
        hist := if pc = .count then s.hist else .inserted (.ready p) t :: s.hist } := by
    cases hu with
    | still hnot =>
      have hnone := hnot (.inserting pc i t p a) (by simp [hstack])
      simp [Frame.isInserting] at hnone
    | rest _ _ _ _ _ store hstack' hstore =>
      rw [hstack] at hstack'
      cases hstack'
      exact ⟨store, hstore, rfl⟩
  cases h with
  | go _ pc' _ _ _ _ store hins =>
    obtain ⟨hfinish, hpc, hpc'⟩ := hins.finish
    rw [hfinish] at hlast
    simpa [hpc, hpc'] using Settles.rest pc' i t p a last rfl hlast
  | linked _ _ _ _ store hinc =>
    obtain rfl : store = last := by simpa [finishInsert, hinc] using hlast
    simpa using Settles.rest .count i t p a store rfl rfl
  | counted =>
    obtain rfl : s.store = last := by simpa [finishInsert] using hlast
    exact .still (by simp [Frame.isInserting])

/-- A new node and the rest of `q_insert` after the test of the tail. -/
theorem qInsert_eq_finish {store store' : Store QRef Tid} {q : QRef} {linked : Bool}
    (hnew : store.newObj a t = some store') (hlinked : store'.hasTail q = some linked) :
    store.qInsert q a t = finishInsert q a (if linked then .tailNext else .tail) store' := by
  cases linked <;> simp [Store.qInsert, hnew, Store.linkTail, hlinked, finishInsert]

/-- The call of `q_insert` begins an insertion that can be finished. -/
theorem InsertStep.call_settles (h : InsertStep s (.insert i t) s') (hq : QueuesOk AllQueues s)
    (hstack : s.stack = .insert i t :: k) : ∃ u, Trans .routine s .exec u ∧ Settles s' u := by
  cases h with
  | call _ _ store linked hslot hnew hlinked =>
    have hthere : s.store.queues (.ready (s.tcb t).priority) ≠ none := by
      intro hnone
      obtain ⟨-, rfl⟩ := newObj_spec hnew
      simp [Store.hasTail, hnone] at hlinked
    obtain ⟨xs, hholds, -⟩ := hq.holds trivial hthere
    obtain ⟨owner, hl, -⟩ := hq.booked
    obtain ⟨last, hins, -⟩ := hholds.qInsert hl.free t
    have hlast := hins
    rw [qInsert_eq_finish hnew hlinked] at hlast
    refine ⟨_, .insertWhole i t k last rfl hstack hslot hins, ?_⟩
    cases linked
    · simpa using Settles.rest .tail i t _ s.fresh last rfl hlast
    · simpa using Settles.rest .tailNext i t _ s.fresh last rfl hlast

theorem Trans.expire {g g' : Grain} (h : Trans g s .expire s') : Trans g' s .expire s' := by
  cases h with
  | control m k b es h => exact .control _ _ _ _ h

theorem Trans.expire_stack {g : Grain} (h : Trans g s .expire s') :
    s'.stack = .handler :: s.stack := by
  cases h with
  | control m k b es h =>
    cases h
    rfl

theorem Sound.not_inserting (hs : Sound s) (hstack : s.stack = f :: k)
    (hf : f.isInserting = false) : ∀ f' ∈ s.stack, f'.isInserting = false := by
  intro f' hmem
  rw [hstack] at hmem
  rcases List.mem_cons.mp hmem with rfl | hmem
  · exact hf
  · simpa using hs.alone.not_below hstack hmem

/-- The timer fires only where no insertion is in progress. -/
theorem NoSplit.not_inserting (hns : NoSplit m s) (hm : m = .expire) (f : Frame)
    (hstack : s.stack = [f]) : ¬ f.isInserting = true := by
  simpa [hstack] using hns hm

theorem Trans.settled (h : Trans .statement s m s') (hns : NoSplit m s)
    (hs : Sound s) : ∃ u, Settles s' u ∧ QueuesOk AllQueues u := by
  by_cases hins : ∃ f ∈ s.stack, f.isInserting = true
  · obtain ⟨f, hmem, hf⟩ := hins
    have hstack := hs.stack f hmem hf
    have hm : m ≠ .expire := fun hm => hns.not_inserting hm f hstack hf
    obtain ⟨u, hu, hq⟩ := hs.settled
    cases f with
    | inserting pc i t p a => exact ⟨u, (h.insertStep hm hstack rfl).settles hstack hu, hq⟩
    | _ => cases hf
  · have hnone : ∀ f ∈ s.stack, f.isInserting = false := fun f hmem => by
      by_contra hf
      exact hins ⟨f, hmem, by simpa using hf⟩
    have hq := hs.queues hnone
    have hstill : QueuesOk AllQueues s' → (∀ i t k, s.stack = .insert i t :: k → m = .expire) →
        ∃ u, Settles s' u ∧ QueuesOk AllQueues u := by
      intro hq' hexpire
      refine ⟨s', .still fun f hmem => ?_, hq'⟩
      by_contra hf
      cases f with
      | inserting pc i t p a =>
        rcases h.inserting_mem (Or.inl hmem) with ⟨pc', hold | ⟨u, k, hk, hold⟩⟩ | ⟨-, k, hk, -⟩
        · exact absurd (hnone _ hold) (by simp [Frame.isInserting])
        · exact absurd (hs.context u k hk _ hold) (by simp [Frame.isInserting])
        · obtain rfl := hexpire _ _ _ hk
          have halone := h.alone_stack (fun _ => Frame.phase_of_isInserting)
            hns.not_inserting hs.alone hmem rfl
          rw [h.expire_stack, hk] at halone
          cases halone
      | _ => exact hf rfl
    by_cases hm : m = .expire
    · subst hm
      exact hstill (h.expire.queuesOk hq steady_of_routine) fun _ _ _ _ => rfl
    · by_cases hinsert : ∃ i t k, s.stack = .insert i t :: k
      · obtain ⟨i, t, k, hstack⟩ := hinsert
        obtain ⟨u, hu, hsettles⟩ := (h.insertStep hm hstack rfl).call_settles hq hstack
        exact ⟨u, hsettles, hu.queuesOk hq steady_of_routine⟩
      · refine hstill (h.queuesOk hq fun _ f k hstack hf => ?_)
          fun i t k hk => absurd ⟨i, t, k, hk⟩ hinsert
        cases f with
        | insert i t => exact absurd ⟨i, t, k, hstack⟩ hinsert
        | inserting pc i t p a =>
          have hnot := hnone (.inserting pc i t p a) (by simp [hstack])
          simp [Frame.isInserting] at hnot
        | _ => cases hf

theorem Trans.sound (h : Trans .statement s m s') (hr : Regular s) (hns : NoSplit m s)
    (hs : Sound s) : Sound s' := by
  have halone := h.standsAlone (fun _ => Frame.phase_of_isInserting) hns.not_inserting hr.shaped
    hs.alone
  exact ⟨halone.stack, fun t k hk f hmem => by simpa using halone.context t k hk f hmem,
    h.settled hns hs⟩

theorem Initial.sound (h : Initial s) : Sound s := by
  have halone : StandsAlone (fun f => f.isInserting = true) s :=
    h.standsAlone (by simp [Frame.isInserting])
  have hq : QueuesOk AllQueues s := h.queuesOk
  obtain ⟨f, v, p, hb⟩ := h.begun
  refine ⟨halone.stack, fun t k hk f hmem => by simpa using halone.context t k hk f hmem, s,
    .still ?_, hq⟩
  simp [hb.stack, Frame.isInserting]

variable {s₀ : State}

theorem sound_of_run (h₀ : Initial s₀) (hrun : Run (step .statement) NoSplit s₀ s) :
    Regular s ∧ Sound s :=
  hrun.invariant (I := fun a => Regular a ∧ Sound a) ⟨h₀.regular, h₀.sound⟩
    fun _ _ _ hi hns hstep =>
      ⟨(step_trans hstep).regular hi.1, (step_trans hstep).sound hi.1 hns hi.2⟩

/-- The level `p` of the ready queues is as its history says: a well-formed list
of the threads inserted and not yet removed, counted twice. -/
def LevelOk (s : State) (p : ℤ) : Prop :=
  ∃ xs, Holds s.store (.ready p) xs ∧ s.threadLevelCount p = xs.length ∧
    insertedAt (.ready p) s.hist = removedAt (.ready p) s.hist ++ xs.map Prod.snd

/-- If the timer never fires in the epilogue of `incrementStack`, every level is
right whenever `Scheduler` begins its scan. -/
theorem levels_ok_at_scan (h₀ : Initial s₀) (hrun : Run (step .statement) EpilogueWhole s₀ s)
    (hscan : s.stack = .sched :: k) (hp : 0 ≤ p ∧ p < 128) : LevelOk s p := by
  obtain ⟨-, hs⟩ := sound_of_run h₀ (hrun.mono fun _ _ hwhole => hwhole.noSplit)
  have hq : QueuesOk AllQueues s := hs.queues (hs.not_inserting hscan rfl)
  obtain ⟨xs, hholds, hxs⟩ := hq.holds (q := .ready p) trivial
    fun hnone => (hq.ready p).mp hnone hp
  obtain ⟨hcount, hhist⟩ := hq.contents (q := .ready p) trivial
  refine ⟨xs, hholds, ?_, by rw [hxs, hhist]⟩
  rw [State.threadLevelCount, hcount, ← hxs, List.length_map]

/-- A thread joins the one it has forked; that one ends and is preempted by the
timer when it has put the joiner into the queue and not yet counted it. -/
def preemptedInWakeLoop : List Move :=
  [.exec, .exec, .call (.tFork 0 .null 126), .exec, .exec, .call (.tJoin 2), .exec, .exec, .exec,
   .finish, .exec, .exec, .exec, .exec, .exec, .exec, .exec, .exec, .expire, .exec, .exec]

/-- The scan then does not see the joiner. -/
theorem level_wrong_at_scan :
    ∃ s₀ s, Initial s₀ ∧ Run (step .statement) AnyTiming s₀ s ∧ s.stack = [.sched] ∧
      ¬ LevelOk s 127 := by
  obtain ⟨s₀, s, h₀, hrun, hgood⟩ := exists_run .statement AnyTiming [] 127 preemptedInWakeLoop
    (fun s => s.stack = [.sched] && s.threadLevelCount 127 = 0 && s.contents (.ready 127) = [1])
    (by decide +kernel)
  simp only [Bool.and_eq_true, decide_eq_true_eq] at hgood
  obtain ⟨⟨hstack, hcount⟩, hcontents⟩ := hgood
  refine ⟨s₀, s, h₀, hrun, hstack, ?_⟩
  intro h'
  obtain ⟨xs, hholds, hlength, -⟩ := h'
  have hxs : xs.map Prod.snd = [1] := hholds.contents_eq.symm.trans hcontents
  rw [hcount] at hlength
  obtain rfl : xs = [] := List.length_eq_zero_iff.mp (Int.ofNat_eq_zero.mp hlength.symm)
  cases hxs

/-- Thread 1 joins thread 2, which ends and puts thread 1 back into its queue before the scan. -/
theorem levels_ok_at_scan_joined :
    ∃ s₀ s, Initial s₀ ∧ Run (step .statement) EpilogueWhole s₀ s ∧ s.stack = [.sched] ∧
      s.contents (.ready 127) = [1] ∧ LevelOk s 127 := by
  obtain ⟨s₀, s, h₀, hrun, hgood⟩ := exists_run .statement EpilogueWhole [] 127
    ([.exec, .exec, .call (.tFork 0 .null 126), .exec, .exec, .call (.tJoin 2), .exec, .exec,
      .exec, .finish] ++ List.replicate 61 .exec)
    (fun s => s.stack = [.sched] && s.contents (.ready 127) = [1]) (by decide +kernel)
  simp only [Bool.and_eq_true, decide_eq_true_eq] at hgood
  obtain ⟨hstack, hcontents⟩ := hgood
  exact ⟨s₀, s, h₀, hrun, hstack, hcontents, levels_ok_at_scan h₀ hrun hstack (by decide)⟩

end UserThreads.Threads
