import UserThreads.Places

/-!
When `t_join` returns. A joiner that blocks is made ready by the wake loop of the
thread it waits for, but nothing keeps an entry that it left in some queue from
resuming it before. When a thread that blocks in `t_join` has no such entry, the
join returns only after the other thread has ended.
-/
namespace UserThreads.Threads

open LinkedCells Queue Runs MultilevelQueue

/-- Every `t_join` that is past its wait came after the end of the thread joined. -/
def JoinsAfterEnd (s : State) : Prop :=
  ∀ t tid pre post, s.hist = pre ++ .joined t tid :: post → .ended tid ∈ post

/-- A thread that blocks in `t_join` is in no queue. -/
def JoinsFromNoQueue (m : Move) (s : State) : Prop :=
  m = .exec → ∀ tid k, s.stack = .enter (.tJoin tid) :: k → tid ∉ s.exitedThreadIDs →
    Absent s.contents s.currentRunningThread

/-- What a thread that waits in `t_join` can rely on. -/
structure JoinOk (s : State) : Prop where
  exited : ∀ t ∈ s.exitedThreadIDs, s.Ended t
  epilogue : phase s.stack = .epilogue → s.Ended s.currentRunningThread
  top : ∀ tid k, s.stack = .joined tid :: k → s.Ended tid
  waiting : ∀ t tid, s.Joins t tid → (s.tcb t).waitingForTid = tid ∧
    (¬ Absent s.contents t → s.Ended tid)

variable {s s' : State} {m : Move} {t tid : Tid} {es hist : List Event}

/-- What a joiner relies on survives a move that does not change its tcb and does
not put it into a queue. -/
theorem JoinOk.keep (hj : JoinOk s) (h : PlaceMove s s' m) (ht : s'.Joins t tid)
    (hcontext : (s'.tcb t).context = (s.tcb t).context)
    (hwaiting : (s'.tcb t).waitingForTid = (s.tcb t).waitingForTid)
    (habsent : Absent s.contents t → Absent s'.contents t) :
    (s'.tcb t).waitingForTid = tid ∧ (¬ Absent s'.contents t → s'.Ended tid) := by
  rw [State.Joins, hcontext] at ht
  obtain ⟨htid, hended⟩ := hj.waiting t tid ht
  exact ⟨hwaiting.trans htid, fun hin => h.ended_mono (hended fun hout => hin (habsent hout))⟩

theorem PlaceMove.waiting (h : PlaceMove s s' m) (hl : LoopFrames s) (hj : JoinOk s)
    (hnone : JoinsFromNoQueue m s) (ht : s'.Joins t tid) :
    (s'.tcb t).waitingForTid = tid ∧ (¬ Absent s'.contents t → s'.Ended tid) := by
  have hkeep := hj.keep h ht
  have hmono : ∀ u, s.Ended u → s'.Ended u := fun _ => h.ended_mono
  cases h with
  | keep _ hcontents htcb | finish _ _ hcontents htcb =>
    rw [htcb] at hkeep
    rw [htcb]
    exact hkeep rfl rfl (by rw [hcontents]; exact id)
  | abandon _ _ _ _ hcontents htcb =>
    by_cases hcur : t = s.currentRunningThread
    · obtain ⟨k, hk⟩ := ht
      simp [htcb, hcur] at hk
    · rw [htcb, Function.update_of_ne hcur] at hkeep
      rw [htcb, Function.update_of_ne hcur]
      exact hkeep rfl rfl (by rw [hcontents]; exact id)
  | suspend q f k _ _ hf hcontents htcb =>
    by_cases hcur : t = s.currentRunningThread
    · obtain ⟨k', hk⟩ := ht
      simp only [htcb, hcur, Function.update_self, Option.some.injEq, List.cons.injEq] at hk
      exact absurd hk.1 (hf tid)
    · rw [htcb, Function.update_of_ne hcur] at hkeep
      rw [htcb, Function.update_of_ne hcur]
      exact hkeep rfl rfl (by rw [hcontents]; exact (absent_append_iff hcur).mpr)
  | fork f v p _ _ hcontents htcb =>
    by_cases hid : t = s.gThreadID + 1
    · obtain ⟨k, hk⟩ := ht
      simp [htcb, hid] at hk
    · rw [htcb, Function.update_of_ne hid] at hkeep
      rw [htcb, Function.update_of_ne hid]
      exact hkeep rfl rfl (by rw [hcontents]; exact (absent_append_iff hid).mpr)
  | join tid' k slot hstack hexited _ hcontents htcb =>
    by_cases hcur : t = s.currentRunningThread
    · obtain ⟨k', hk⟩ := ht
      simp only [htcb, hcur, Function.update_self, Option.some.injEq, List.cons.injEq,
        Frame.joined.injEq] at hk
      refine ⟨by simp [htcb, hcur, hk.1], fun hin => absurd ?_ hin⟩
      rw [hcontents, hcur]
      exact hnone rfl tid' k hstack hexited
    · rw [htcb, Function.update_of_ne hcur] at hkeep
      rw [htcb, Function.update_of_ne hcur]
      exact hkeep rfl rfl (by rw [hcontents]; exact id)
  | move q p u rest _ _ hhead hcontents htcb =>
    refine hkeep (htcb t).1 (htcb t).2 fun habsent => ?_
    have hne : t ≠ u := by
      intro heq
      subst heq
      exact habsent q (by simp [hhead])
    rw [hcontents]
    exact (absent_append_iff hne).mpr ((absent_take_iff hhead hne).mpr habsent)
  | insert i u p k hstack _ hcontents htcb =>
    by_cases htu : t = u
    · subst htu
      rw [State.Joins, htcb] at ht
      obtain ⟨htid, -⟩ := hj.waiting t tid ht
      have hended := hj.epilogue (by rw [hstack]; rfl)
      rw [← (hl.insert i t k hstack).2, htid] at hended
      rw [htcb]
      exact ⟨htid, fun _ => hmono tid hended⟩
    · rw [htcb] at hkeep
      rw [htcb]
      exact hkeep rfl rfl (by rw [hcontents]; exact (absent_append_iff htu).mpr)
  | dispatch y u k rest _ _ hhead hcontents htcb =>
    refine hkeep (htcb t).1 (htcb t).2 fun habsent => ?_
    have hne : t ≠ u := by
      intro heq
      subst heq
      exact habsent (.ready y) (by simp [hhead])
    rw [hcontents]
    exact (absent_take_iff hhead hne).mpr habsent

/-- Only the end of the wake loop records a thread as exited. -/
theorem Trans.exited {g : Grain} (h : Trans g s m s') (ht : t ∈ s'.exitedThreadIDs) :
    t ∈ s.exitedThreadIDs ∨ t = s.currentRunningThread ∧ phase s.stack = .epilogue := by
  cases h with
  | record i k hstack =>
    rcases List.mem_append.mp ht with hold | hnew
    · exact Or.inl hold
    · exact Or.inr ⟨List.mem_singleton.mp hnew, by rw [hstack]; rfl⟩
  | _ => exact Or.inl ht

/-- A thread that gets past its wait in `t_join` was taken out of a ready queue. -/
theorem Trans.joined_top {g : Grain} {k : List Frame} (h : Trans g s m s') (hm : MaskOk s)
    (hq : QueuesOk AllQueues s) (hstack' : s'.stack = .joined tid :: k) :
    ∃ u, s.Joins u tid ∧ ¬ Absent s.contents u := by
  rcases h.not_resume hm (f := .joined tid) (by simp [hstack']) with hnot |
    ⟨-, y, u, _, store, -, hrem, hcontext⟩
  · cases hnot
  · obtain ⟨rest, hhead⟩ := hq.head trivial hrem
    exact ⟨u, ⟨k, by rw [hcontext, hstack']⟩, fun habsent => habsent (.ready y) (by simp [hhead])⟩

theorem Trans.joinOk (h : Trans .routine s m s') (hp : PlaceMove s s' m) (ho : Orderly s)
    (hnone : JoinsFromNoQueue m s) (hj : JoinOk s) : JoinOk s' where
  exited t ht := by
    rcases h.exited ht with hold | ⟨rfl, hphase⟩
    · exact hp.ended_mono (hj.exited t hold)
    · exact hp.ended_mono (hj.epilogue hphase)
  epilogue := hp.epilogue hj.epilogue
  top tid k hstack' := by
    obtain ⟨u, hu, hin⟩ := h.joined_top ho.regular.mask ho.queues hstack'
    exact hp.ended_mono ((hj.waiting u tid hu).2 hin)
  waiting _ _ ht := hp.waiting ho.loop hj hnone ht

/-- A move adds no event of a `t_join`, or the one of the running thread. -/
theorem Trans.joined_event {g : Grain} (h : Trans g s m s') :
    (∃ es, s'.hist = es ++ s.hist ∧ ∀ t tid, .joined t tid ∉ es) ∨
      ∃ tid, s'.hist = .joined s.currentRunningThread tid :: s.hist ∧
        (tid ∈ s.exitedThreadIDs ∨ ∃ k, s.stack = .joined tid :: k) := by
  cases h with
  | control m k b es h =>
    cases h with
    | joinDone tid k hstack hexited => exact Or.inr ⟨tid, rfl, Or.inl hexited⟩
    | joined tid k hstack => exact Or.inr ⟨tid, rfl, Or.inr ⟨k, hstack⟩⟩
    | finish | start => exact Or.inl ⟨[_], rfl, by simp⟩
    | _ => exact Or.inl ⟨[], rfl, by simp⟩
  | suspend | unlock | lock | exit | insertWhole | inserted | dispatchOld =>
    exact Or.inl ⟨[_], rfl, by simp⟩
  | fork | sigWake | semWake | dispatchNew => exact Or.inl ⟨[_, _], rfl, by simp⟩
  | _ => exact Or.inl ⟨[], rfl, by simp⟩

/-- The history only grows. -/
theorem Trans.grows {g : Grain} (h : Trans g s m s') : ∃ es, s'.hist = es ++ s.hist := by
  rcases h.joined_event with ⟨es, hes, -⟩ | ⟨tid, hes, -⟩
  · exact ⟨es, hes⟩
  · exact ⟨[_], hes⟩

theorem Trans.ended_mono {g : Grain} (h : Trans g s m s') (ht : s.Ended t) : s'.Ended t := by
  obtain ⟨es, hes⟩ := h.grows
  rw [State.Ended, hes]
  exact List.mem_append_right _ ht

theorem Trans.joinsAfterEnd {g : Grain} (h : Trans g s m s') (hj : JoinOk s)
    (hafter : JoinsAfterEnd s) : JoinsAfterEnd s' := by
  intro t tid pre post hhist
  rcases h.joined_event with ⟨es, hes, hnot⟩ | ⟨tid', hes, hreason⟩
  · rw [hes] at hhist
    rcases split_append hhist with ⟨pre', -, hhist⟩ | ⟨rest, rfl, -⟩
    · exact hafter t tid pre' post hhist
    · exact absurd (List.mem_append_right _ (List.mem_cons_self ..)) (hnot t tid)
  · rw [hes] at hhist
    cases pre with
    | nil =>
      cases hhist
      rcases hreason with hexited | ⟨k, hstack⟩
      · exact hj.exited tid hexited
      · exact hj.top tid k hstack
    | cons e pre => exact hafter t tid pre post (List.cons.inj hhist).2

theorem Initial.joinOk (h : Initial s) : JoinOk s ∧ JoinsAfterEnd s := by
  obtain ⟨f, v, p, hb⟩ := h.begun
  refine ⟨⟨?_, ?_, ?_, ?_⟩, ?_⟩
  · simp [hb.exited]
  · simp [hb.stack, phase, Frame.phase]
  · simp [hb.stack]
  · intro t tid h'
    obtain ⟨k, hk⟩ := h'
    by_cases ht : t = 1
    · simp [hb.tcb, ht] at hk
    · simp [hb.tcb, Function.update_of_ne ht] at hk
  · intro t tid pre post hhist
    have hmem : .joined t tid ∈ s.hist := by simp [hhist]
    simp [hb.hist] at hmem

variable {s₀ : State} {path : List (Move × State)}

theorem joinsAfterEnd_of_run (h₀ : Initial s₀)
    (hrun : Run (step .routine) (fun m a => Atomic m a ∧ JoinsFromNoQueue m a) s₀ s) :
    JoinsAfterEnd s := by
  obtain ⟨hj₀, hafter₀⟩ := h₀.joinOk
  refine (hrun.invariant (I := fun a => Orderly a ∧ JoinOk a ∧ JoinsAfterEnd a)
    ⟨h₀.orderly, hj₀, hafter₀⟩ ?_).2.2
  intro m a b hI hok hstep
  obtain ⟨ho, hj, hafter⟩ := hI
  obtain ⟨hatomic, hnone⟩ := hok
  have h := step_trans hstep
  exact ⟨h.orderly hatomic ho, h.joinOk (ho.placeMove h hatomic) ho hnone hj,
    h.joinsAfterEnd hj hafter⟩

/-- When threads that block in `t_join` are in no queue, every `t_join` that returns
does so after the end of the thread joined, whatever was joined before and however
the others are scheduled. -/
theorem joins_after_end (h₀ : Initial s₀) (hpath : Path (step .routine) s₀ path s)
    (hatomic : ∀ x ∈ path, Atomic x.1 x.2) (hnone : ∀ x ∈ path, JoinsFromNoQueue x.1 x.2) :
    (∀ x ∈ path, JoinsAfterEnd x.2) ∧ JoinsAfterEnd s := by
  have hall : ∀ u, Run (step .routine) (fun m a => Atomic m a ∧ JoinsFromNoQueue m a) s₀ u →
      JoinsAfterEnd u := fun u hrun => joinsAfterEnd_of_run h₀ hrun
  exact hpath.forall_of_run (fun x hx => ⟨hatomic x hx, hnone x hx⟩) hall

/-- Thread 1 joins thread 2 and then thread 3, whose end makes it ready twice; then it
joins thread 4. -/
def joinedThree : List Move :=
  [.exec, .exec, .call (.tFork 0 .null 126), .exec, .exec, .call (.tFork 0 .null 125), .exec,
   .exec, .call (.tFork 0 .null 124), .exec, .exec, .call (.tJoin 2), .exec, .exec, .exec,
   .finish] ++ List.replicate 59 .exec ++ [.call (.tJoin 3), .exec, .exec, .exec, .finish] ++
  List.replicate 62 .exec ++ [.call (.tJoin 4), .exec, .exec, .exec]

/-- The join of thread 4 returns before thread 4 has started. -/
theorem join_returns_early :
    ∃ s₀ path s, Initial s₀ ∧ Path (step .routine) s₀ path s ∧ (∀ x ∈ path, Atomic x.1 x.2) ∧
      ¬ JoinsAfterEnd s := by
  obtain ⟨s₀, path, s, h₀, hpath, hatomic, hgood⟩ := exists_path .routine Atomic [] 127
    joinedThree (fun s => s.hist.head? = some (.joined 1 4) && !s.hist.contains (.ended 4))
    (by decide +kernel)
  simp only [Bool.and_eq_true, decide_eq_true_eq, Bool.not_eq_true', List.head?_eq_some_iff,
    List.contains_eq_mem, decide_eq_false_iff_not] at hgood
  obtain ⟨⟨rest, hhist⟩, hended⟩ := hgood
  refine ⟨s₀, path, s, h₀, hpath, hatomic, fun hs => hended ?_⟩
  rw [hhist]
  exact List.mem_cons_of_mem _ (hs 1 4 [] rest hhist)

/-- As far as the history tells, the running thread is in no queue. -/
def State.entriesTaken (s : State) : Bool :=
  s.hist.all fun
    | .inserted q t => t ≠ s.currentRunningThread ||
        (insertedAt q s.hist).count t = (removedAt q s.hist).count t
    | _ => true

/-- As far as the history tells, the thread is in no queue. -/
def takenOut (t : Tid) (hist : List Event) : Bool :=
  hist.all fun
    | .inserted q u => u ≠ t || (insertedAt q hist).count u = (removedAt q hist).count u
    | _ => true

theorem absent_of_takenOut (hq : QueuesOk AllQueues s) (h : takenOut t s.hist = true) :
    Absent s.contents t := by
  intro q hmem
  have hhist := (hq.contents (q := q) trivial).2
  have hin : t ∈ insertedAt q s.hist := by
    rw [hhist]
    exact List.mem_append_right _ hmem
  have hcount := List.all_eq_true.mp h _ (inserted_mem hin)
  simp only [ne_eq, not_true_eq_false, decide_false, Bool.false_or, decide_eq_true_eq] at hcount
  rw [hhist, List.count_append] at hcount
  have hpos := List.count_pos_iff.mpr hmem
  omega

theorem absent_of_entriesTaken (hq : QueuesOk AllQueues s) (h : s.entriesTaken = true) :
    Absent s.contents s.currentRunningThread :=
  absent_of_takenOut hq h

/-- A thread joins another one and returns when that one has ended. -/
theorem joins_after_end_once :
    ∃ (s₀ : State) (path : List (Move × State)) (s : State), Initial s₀ ∧
      s.hist.head? = some (.joined 1 2) ∧ (∀ x ∈ path, JoinsAfterEnd x.2) ∧ JoinsAfterEnd s := by
  obtain ⟨s₀, path, s, h₀, hpath, hok, hgood⟩ := exists_path .routine
    (fun m s => Atomic m s ∧ s.entriesTaken = true) [] 127
    ([.exec, .exec, .call (.tFork 0 .null 126), .exec, .exec, .call (.tJoin 2), .exec, .exec,
      .exec, .finish] ++ List.replicate 58 .exec)
    (fun s => s.hist.head? = some (.joined 1 2)) (by decide +kernel)
  have hany : ∀ x ∈ path, AnyTiming x.1 x.2 := fun _ _ => trivial
  have hq : ∀ x ∈ path, QueuesOk AllQueues x.2 := fun x hx =>
    queuesOk_of_run h₀ (fun _ => steady_of_routine) (hpath.run_of_mem hany hx)
  exact ⟨s₀, path, s, h₀, by simpa using hgood, joins_after_end h₀ hpath
    (fun x hx => (hok x hx).1)
    fun x hx _ _ _ _ _ => absent_of_entriesTaken (hq x hx) (hok x hx).2⟩

end UserThreads.Threads
