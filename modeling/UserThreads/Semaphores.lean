import UserThreads.ReadyQueues

/-!
The permits of a semaphore. A grant is a `Semaphore_P` that passes at once or a
waiter that `Semaphore_V` hands its permit to. The value and the grants together
are the initial count and the calls of `Semaphore_V`, whatever runs in between;
the waiters are granted in the order in which they blocked, and nobody passes
while one of them is left.
-/
namespace UserThreads.Threads

open LinkedCells Queue Runs

/-- The step is the call of the routine. -/
def calls (op : Op) (x : Move × State) : Bool :=
  x.1 = .exec && x.2.stack.head? = some (.enter op)

/-- A `Semaphore_P` that finds a permit. -/
def passes (i : SemId) (x : Move × State) : Bool :=
  calls (.semaphoreP i) x && (x.2.semaphores i).any (0 < ·)

/-- The step creates semaphore `i` with this count. -/
def creates (i : SemId) (c : ℤ) (x : Move × State) : Bool :=
  calls (.semaphoreCreate c true) x && x.2.semaphoreID + 1 = i

/-- `semaphore_create` has been called with count `c` for semaphore `i`, by `main`
or in the course of the run. -/
def MadeWith (s₀ : State) (path : List (Move × State)) (i : SemId) (c : ℤ) : Prop :=
  s₀.semaphores i = some c ∨ ∃ x ∈ path, creates i c x = true

/-- The calls of `Semaphore_P` that passed at once, and the waiters that
`Semaphore_V` has removed. -/
def grants (i : SemId) (path : List (Move × State)) (s : State) : ℕ :=
  path.countP (passes i) + (removedAt (.sem i) s.hist).length

/-- Who is removed from the waiters of the semaphore is made ready at once. -/
def HandsOver (i : SemId) (hist : List Event) : Prop :=
  ∀ pre t post, hist = pre ++ .removed (.sem i) t :: post →
    ∃ pre' p, pre = pre' ++ [.inserted (.ready p) t]

variable {s₀ s s' : State} {m : Move} {i : SemId} {c v : ℤ} {g : Grain}
  {path : List (Move × State)}

/-- What the value of semaphore `i` says when it was created with count `c`. -/
structure Balanced (i : SemId) (c v : ℤ) (path : List (Move × State)) (s : State) : Prop where
  nonneg : 0 ≤ v
  free : 0 < v → s.contents (.sem i) = []
  permits : v + grants i path s = c + path.countP (calls (.semaphoreV i))

/-- The account of semaphore `i` along a path. -/
structure PermitsOk (s₀ : State) (i : SemId) (path : List (Move × State)) (s : State) : Prop where
  unmade : s.semaphoreID < i → (∀ c, ¬ MadeWith s₀ path i c) ∧ s.semaphores i = none ∧
    grants i path s = 0 ∧ path.countP (calls (.semaphoreV i)) = 0
  balanced : ∀ c, MadeWith s₀ path i c → 0 ≤ c →
    ∀ v, s.semaphores i = some v → Balanced i c v path s
  waiting : ∀ c, MadeWith s₀ path i c → 0 ≤ c →
    ∀ x ∈ path, passes i x = true → x.2.contents (.sem i) = []
  hands : HandsOver i s.hist

/-- What a move does to semaphore `i`. -/
inductive SemMove (i : SemId) (m : Move) (s s' : State) : Prop
  | keep (es : List Event) (hpass : passes i (m, s) = false)
      (hpost : calls (.semaphoreV i) (m, s) = false) (hnew : ∀ c, creates i c (m, s) = false)
      (hid : i ≤ s.semaphoreID ↔ i ≤ s'.semaphoreID) (hvalue : s'.semaphores i = s.semaphores i)
      (hhist : s'.hist = es ++ s.hist) (hins : insertedAt (.sem i) es = [])
      (hrem : removedAt (.sem i) es = []) : SemMove i m s s'
  | pass (v : ℤ) (hpass : passes i (m, s) = true) (hpost : calls (.semaphoreV i) (m, s) = false)
      (hnew : ∀ c, creates i c (m, s) = false) (hid : s'.semaphoreID = s.semaphoreID)
      (hsem : s.semaphores i = some v) (hv : 0 < v) (hvalue : s'.semaphores i = some (v - 1))
      (hhist : s'.hist = s.hist) : SemMove i m s s'
  | block (t : Tid) (v : ℤ) (hpass : passes i (m, s) = false)
      (hpost : calls (.semaphoreV i) (m, s) = false)
      (hnew : ∀ c, creates i c (m, s) = false) (hid : s'.semaphoreID = s.semaphoreID)
      (hsem : s.semaphores i = some v) (hv : ¬ 0 < v) (hvalue : s'.semaphores i = some v)
      (hhist : s'.hist = .inserted (.sem i) t :: s.hist) : SemMove i m s s'
  | hand (p : ℤ) (t : Tid) (v : ℤ) (hpass : passes i (m, s) = false)
      (hpost : calls (.semaphoreV i) (m, s) = true)
      (hnew : ∀ c, creates i c (m, s) = false) (hid : s'.semaphoreID = s.semaphoreID)
      (hsem : s.semaphores i = some v) (hvalue : s'.semaphores i = some v)
      (hcount : 0 < s.semaphoreWaiters i)
      (hhist : s'.hist = .inserted (.ready p) t :: .removed (.sem i) t :: s.hist) :
      SemMove i m s s'
  | post (v : ℤ) (hpass : passes i (m, s) = false) (hpost : calls (.semaphoreV i) (m, s) = true)
      (hnew : ∀ c, creates i c (m, s) = false) (hid : s'.semaphoreID = s.semaphoreID)
      (hsem : s.semaphores i = some v) (hvalue : s'.semaphores i = some (v + 1))
      (hcount : ¬ 0 < s.semaphoreWaiters i) (hhist : s'.hist = s.hist) : SemMove i m s s'
  | create (c : ℤ) (hpass : passes i (m, s) = false) (hpost : calls (.semaphoreV i) (m, s) = false)
      (hnew : ∀ d, creates i d (m, s) = true ↔ d = c) (hi : i = s.semaphoreID + 1)
      (hid : s'.semaphoreID = i) (hvalue : s'.semaphores i = some c)
      (hhist : s'.hist = s.hist) : SemMove i m s s'
  | destroy (v : ℤ) (hpass : passes i (m, s) = false)
      (hpost : calls (.semaphoreV i) (m, s) = false)
      (hnew : ∀ c, creates i c (m, s) = false) (hid : s'.semaphoreID = s.semaphoreID)
      (hsem : s.semaphores i = some v) (hvalue : s'.semaphores i = none)
      (hhist : s'.hist = s.hist) : SemMove i m s s'

theorem calls_iff {op : Op} :
    calls op (m, s) = true ↔ m = .exec ∧ ∃ k, s.stack = .enter op :: k := by
  simp [calls, List.head?_eq_some_iff]

theorem calls_eq {op op' : Op} {k : List Frame} (hstack : s.stack = .enter op' :: k) :
    calls op (.exec, s) = true ↔ op' = op := by
  simp [calls, hstack]

theorem passes_iff :
    passes i (m, s) = true ↔
      calls (.semaphoreP i) (m, s) = true ∧ ∃ v, s.semaphores i = some v ∧ 0 < v := by
  simp [passes, Option.any_eq_true]

theorem creates_iff :
    creates i c (m, s) = true ↔
      calls (.semaphoreCreate c true) (m, s) = true ∧ s.semaphoreID + 1 = i := by
  simp [creates]

/-- A move that calls none of the routines of semaphore `i`. -/
theorem SemMove.quiet (es : List Event) (hcall : ∀ op, calls op (m, s) = true →
      op ≠ .semaphoreP i ∧ op ≠ .semaphoreV i ∧
        ∀ c, op = .semaphoreCreate c true → s.semaphoreID + 1 ≠ i)
    (hid : i ≤ s.semaphoreID ↔ i ≤ s'.semaphoreID) (hvalue : s'.semaphores i = s.semaphores i)
    (hhist : s'.hist = es ++ s.hist) (hins : insertedAt (.sem i) es = [])
    (hrem : removedAt (.sem i) es = []) : SemMove i m s s' := by
  refine .keep es ?_ ?_ ?_ hid hvalue hhist hins hrem
  · rw [← Bool.not_eq_true, passes_iff]
    exact fun h => (hcall _ h.1).1 rfl
  · rw [← Bool.not_eq_true]
    exact fun h => (hcall _ h).2.1 rfl
  · intro c
    rw [← Bool.not_eq_true, creates_iff]
    exact fun h => (hcall _ h.1).2.2 c rfl h.2

/-- The program points at which something happens to a semaphore. -/
def Frame.ofSem : Frame → Bool
  | .enter (.semaphoreP _) | .enter (.semaphoreV _) | .enter (.semaphoreCreate _ true) => true
  | _ => false

theorem not_calls {f : Frame} {k : List Frame} (hstack : s.stack = f :: k)
    (hf : f.ofSem = false) (op : Op) (hop : calls op (m, s) = true) :
    op ≠ .semaphoreP i ∧ op ≠ .semaphoreV i ∧
      ∀ c, op = .semaphoreCreate c true → s.semaphoreID + 1 ≠ i := by
  obtain ⟨-, k', hk'⟩ := calls_iff.mp hop
  rw [hstack] at hk'
  cases hk'
  refine ⟨?_, ?_, ?_⟩
  · intro h
    simp [h, Frame.ofSem] at hf
  · intro h
    simp [h, Frame.ofSem] at hf
  · intro c h
    simp [h, Frame.ofSem] at hf

theorem Control.not_calls {k : List Frame} {b : Bool} {es : List Event} (h : Control s m k b es)
    (op : Op) (hop : calls op (m, s) = true) : op ≠ .semaphoreP i ∧ op ≠ .semaphoreV i ∧
      ∀ c, op = .semaphoreCreate c true → s.semaphoreID + 1 ≠ i := by
  cases h with
  | expire | call | finish => cases (calls_iff.mp hop).1
  | nullReturn op' k hstack hnull =>
    exact Threads.not_calls hstack (by cases hnull <;> rfl) op hop
  | enable f k hstack hf =>
    exact Threads.not_calls hstack (by rcases hf with rfl | rfl | rfl <;> rfl) op hop
  | joinDone _ _ hstack | waitLock _ _ _ hstack | waitNull _ _ hstack | sigNone _ _ _ _ hstack
  | sigEmpty _ _ _ _ _ hstack | acquire _ _ hstack | ret _ _ hstack | forked _ _ hstack
  | joined _ _ hstack | waitedNull _ hstack | waitedLock _ _ hstack | spinBusy _ _ _ hstack
  | spinFree _ _ hstack | resumed _ hstack | handled _ hstack | start _ hstack
  | wakeSkip _ _ _ hstack | wakeHit _ _ _ hstack | wakeEnd _ _ hstack | testHit _ _ _ hstack
  | testMiss _ _ _ hstack | take _ _ _ hstack | sitBottom _ hstack | idle _ hstack =>
    exact Threads.not_calls hstack rfl op hop

/-- A call on another semaphore. -/
theorem not_calls_of_ne {op : Op} {k : List Frame} (hstack : s.stack = .enter op :: k)
    (hop : op ≠ .semaphoreP i ∧ op ≠ .semaphoreV i ∧
      ∀ c, op = .semaphoreCreate c true → s.semaphoreID + 1 ≠ i) (op' : Op)
    (hcall : calls op' (m, s) = true) : op' ≠ .semaphoreP i ∧ op' ≠ .semaphoreV i ∧
      ∀ c, op' = .semaphoreCreate c true → s.semaphoreID + 1 ≠ i := by
  obtain ⟨-, k', hk'⟩ := calls_iff.mp hcall
  rw [hstack] at hk'
  cases hk'
  exact hop

/-- Which of the calls that matter to semaphore `i` a routine is. -/
theorem calls_exec {op : Op} {k : List Frame} (hstack : s.stack = .enter op :: k) :
    (passes i (.exec, s) = true ↔
      op = .semaphoreP i ∧ ∃ v, s.semaphores i = some v ∧ 0 < v) ∧
    (calls (.semaphoreV i) (.exec, s) = true ↔ op = .semaphoreV i) ∧
    ∀ c, creates i c (.exec, s) = true ↔
      op = .semaphoreCreate c true ∧ s.semaphoreID + 1 = i := by
  refine ⟨?_, calls_eq hstack, fun c => ?_⟩
  · rw [passes_iff, calls_eq hstack]
  · rw [creates_iff, calls_eq hstack]

theorem Trans.semMove (h : Trans g s m s') (i : SemId) : SemMove i m s s' := by
  have hquiet : ∀ {f : Frame} {k : List Frame} (es : List Event), s.stack = f :: k →
      f.ofSem = false → s'.semaphoreID = s.semaphoreID → s'.semaphores i = s.semaphores i →
      s'.hist = es ++ s.hist → insertedAt (.sem i) es = [] → removedAt (.sem i) es = [] →
      SemMove i m s s' := by
    intro f k es hstack hf hid hvalue hhist hins hrem
    exact .quiet es (not_calls hstack hf) (by rw [hid]) hvalue hhist hins hrem
  cases h with
  | control m k b es h =>
    refine .quiet es h.not_calls Iff.rfl rfl rfl ?_ ?_ <;> cases h <;> rfl
  | suspend q f k next store h =>
    cases h with
    | yield _ hstack | timer _ hstack | wait _ _ hstack =>
      exact hquiet [_] hstack rfl rfl rfl rfl (by simp [insertedAt]) rfl
    | pass j v k hstack hsem hv =>
      by_cases hj : j = i
      · subst hj
        obtain ⟨hpass, hpost, hnew⟩ := calls_exec (i := j) hstack
        refine .block s.currentRunningThread v ?_ ?_ (fun c => ?_) rfl hsem hv hsem rfl
        · simpa [Bool.eq_false_iff, hpass, hsem] using hv
        · simp [Bool.eq_false_iff, hpost]
        · simp [Bool.eq_false_iff, hnew]
      · exact .quiet [_] (not_calls_of_ne hstack (by simp [hj])) Iff.rfl rfl rfl
          (by simp [insertedAt, hj]) rfl
  | fork _ _ _ _ _ _ _ hstack => exact hquiet [_, _] hstack rfl rfl rfl rfl rfl rfl
  | sigWake _ _ _ _ _ _ _ _ hstack =>
    exact hquiet [_, _] hstack rfl rfl rfl rfl rfl rfl
  | semWake j k v t store store' hstack hsem hcount =>
    by_cases hj : j = i
    · subst hj
      obtain ⟨hpass, hpost, hnew⟩ := calls_exec (i := j) hstack
      refine .hand _ t v ?_ ?_ (fun c => ?_) rfl hsem hsem hcount rfl
      · simp [Bool.eq_false_iff, hpass]
      · simp [hpost]
      · simp [Bool.eq_false_iff, hnew]
    · exact .quiet [_, _] (not_calls_of_ne hstack (by simp [hj])) Iff.rfl rfl rfl rfl
        (by simp [removedAt, hj])
  | semValue op j k v v' hstack hsem hop =>
    by_cases hj : j = i
    · subst hj
      obtain ⟨hpass, hpost, hnew⟩ := calls_exec (i := j) hstack
      rcases hop with ⟨rfl, hv, rfl⟩ | ⟨rfl, hcount, rfl⟩
      · refine .pass v ?_ ?_ (fun c => ?_) rfl hsem hv (by simp) rfl
        · simpa [hpass, hsem] using hv
        · simp [Bool.eq_false_iff, hpost]
        · simp [Bool.eq_false_iff, hnew]
      · refine .post v ?_ ?_ (fun c => ?_) rfl hsem (by simp) hcount rfl
        · simp [Bool.eq_false_iff, hpass]
        · simp [hpost]
        · simp [Bool.eq_false_iff, hnew]
    · refine .quiet [] (not_calls_of_ne hstack ?_) Iff.rfl (by simp [Ne.symm hj]) rfl rfl rfl
      rcases hop with ⟨rfl, -, -⟩ | ⟨rfl, -, -⟩ <;> simp [hj]
  | semFree j k v hstack hsem =>
    by_cases hj : j = i
    · subst hj
      obtain ⟨hpass, hpost, hnew⟩ := calls_exec (i := j) hstack
      refine .destroy v ?_ ?_ (fun c => ?_) rfl hsem (by simp) rfl
      · simp [Bool.eq_false_iff, hpass]
      · simp [Bool.eq_false_iff, hpost]
      · simp [Bool.eq_false_iff, hnew]
    · exact .quiet [] (not_calls hstack rfl) Iff.rfl (by simp [Ne.symm hj]) rfl rfl rfl
  | newSem count k hstack =>
    by_cases hi : i = s.semaphoreID + 1
    · subst hi
      obtain ⟨hpass, hpost, hnew⟩ := calls_exec (i := s.semaphoreID + 1) hstack
      refine .create count ?_ ?_ (fun c => ?_) rfl rfl (by simp) rfl
      · simp [Bool.eq_false_iff, hpass]
      · simp [Bool.eq_false_iff, hpost]
      · simp [hnew, eq_comm]
    · refine .quiet [] (not_calls_of_ne hstack (by simp [Ne.symm hi])) ?_ (by simp [hi]) rfl rfl rfl
      exact ⟨Nat.le_succ_of_le, fun hle => Nat.le_of_lt_succ (lt_of_le_of_ne hle hi)⟩
  | insertWhole _ _ _ _ _ hstack | inserted _ _ _ _ _ _ _ hstack | dispatchOld _ _ _ _ _ hstack
  | unlock _ _ _ hstack | lock _ _ _ hstack | exit _ _ hstack =>
    exact hquiet [_] hstack rfl rfl rfl rfl rfl rfl
  | dispatchNew _ _ _ _ hstack => exact hquiet [_, _] hstack rfl rfl rfl rfl rfl rfl
  | join _ _ _ hstack | newLock _ hstack | newCond _ _ hstack | leave _ hstack | record _ _ hstack
  | insertCall _ _ _ _ _ _ hstack | inserting _ _ _ _ _ _ _ _ _ hstack
  | counted _ _ _ _ _ _ hstack =>
    exact hquiet [] hstack rfl rfl rfl rfl rfl rfl

theorem madeWith_cons : MadeWith s₀ ((m, s) :: path) i c ↔
    MadeWith s₀ path i c ∨ creates i c (m, s) = true := by
  simp only [MadeWith, List.exists_mem_cons_iff, or_assoc]
  exact or_congr_right or_comm

theorem handsOver_append {hist : List Event} (es : List Event) (h : HandsOver i hist)
    (hes : removedAt (.sem i) es = []) : HandsOver i (es ++ hist) := by
  intro pre t post hsplit
  rcases split_append hsplit with ⟨pre', rfl, hhist⟩ | ⟨rest, rfl, -⟩
  · obtain ⟨pre'', p, rfl⟩ := h pre' t post hhist
    exact ⟨es ++ pre'', p, (List.append_assoc ..).symm⟩
  · simp [removedAt_append, removedAt] at hes

theorem HandsOver.hand {hist : List Event} {p : ℤ} {t : Tid} (h : HandsOver i hist) :
    HandsOver i (.inserted (.ready p) t :: .removed (.sem i) t :: hist) := by
  intro pre u post hsplit
  cases pre with
  | nil => cases hsplit
  | cons e pre =>
    cases pre with
    | nil =>
      cases hsplit
      exact ⟨[], p, rfl⟩
    | cons e' pre =>
      cases hsplit
      obtain ⟨pre', q, rfl⟩ := h pre u post rfl
      exact ⟨_ :: _ :: pre', q, rfl⟩

theorem mem_semQueue : WaitQueues (.sem i) := fun p h => by cases h

/-- Neither the waiters nor their removals have changed. -/
theorem QueuesOk.sem_same (hq : QueuesOk WaitQueues s) (es : List Event)
    (hq' : QueuesOk WaitQueues s') (hhist : s'.hist = es ++ s.hist)
    (hins : insertedAt (.sem i) es = []) (hrem : removedAt (.sem i) es = []) :
    s'.contents (.sem i) = s.contents (.sem i) ∧
      removedAt (.sem i) s'.hist = removedAt (.sem i) s.hist := by
  have hremoved : removedAt (.sem i) s'.hist = removedAt (.sem i) s.hist := by
    simp [hhist, removedAt_append, hrem]
  refine ⟨hq.contents_same hq' mem_semQueue ?_ hremoved, hremoved⟩
  simp [hhist, insertedAt_append, hins]

theorem grants_cons : grants i ((m, s) :: path) s' =
    path.countP (passes i) + (if passes i (m, s) = true then 1 else 0) +
      (removedAt (.sem i) s'.hist).length := by
  rw [grants, List.countP_cons]

theorem posts_cons : ((m, s) :: path).countP (calls (.semaphoreV i)) =
    path.countP (calls (.semaphoreV i)) +
      if calls (.semaphoreV i) (m, s) = true then 1 else 0 :=
  List.countP_cons ..

theorem MadeWith.old (hnew : ∀ d, creates i d (m, s) = false)
    (hmade : MadeWith s₀ ((m, s) :: path) i c) : MadeWith s₀ path i c :=
  (madeWith_cons.mp hmade).resolve_right (by simp [hnew])

/-- A move on a semaphore that has been created and keeps its account. -/
theorem PermitsOk.live (hp : PermitsOk s₀ i path s) (hsem : s.semaphores i = some v)
    (hid : s'.semaphoreID = s.semaphoreID) (hnew : ∀ d, creates i d (m, s) = false)
    (hpass : passes i (m, s) = true → 0 < v) (hhands : HandsOver i s'.hist)
    (hbalanced : ∀ c, Balanced i c v path s → ∀ w, s'.semaphores i = some w →
      Balanced i c w ((m, s) :: path) s') : PermitsOk s₀ i ((m, s) :: path) s' := by
  have hold : ∀ c, MadeWith s₀ ((m, s) :: path) i c → 0 ≤ c → Balanced i c v path s :=
    fun c hmade hc => hp.balanced c (hmade.old hnew) hc v hsem
  refine ⟨fun hi => ?_, fun c hmade hc => hbalanced c (hold c hmade hc),
    fun c hmade hc x hx hx' => ?_, hhands⟩
  · rw [(hp.unmade (hid ▸ hi)).2.1] at hsem
    cases hsem
  · rcases List.mem_cons.mp hx with rfl | hx
    · exact (hold c hmade hc).free (hpass hx')
    · exact hp.waiting c (hmade.old hnew) hc x hx hx'

theorem SemMove.permitsOk (h : SemMove i m s s') (hq : QueuesOk WaitQueues s)
    (hq' : QueuesOk WaitQueues s') (hp : PermitsOk s₀ i path s) :
    PermitsOk s₀ i ((m, s) :: path) s' := by
  have hcounter := (hq.contents (mem_semQueue (i := i))).1
  cases h with
  | keep es hpass hpost hnew hid hvalue hhist hins hrem =>
    obtain ⟨hcontents, hremoved⟩ := hq.sem_same es hq' hhist hins hrem
    have hgrants : grants i ((m, s) :: path) s' = grants i path s := by
      simp [grants, hpass, hremoved]
    refine ⟨fun hi => ?_, fun c hmade hc v hv => ?_, fun c hmade hc x hx hx' => ?_, ?_⟩
    · obtain ⟨hmade, hsem, hzero, hposts⟩ :=
        hp.unmade (Nat.lt_of_not_le fun hle => Nat.not_le_of_lt hi (hid.mp hle))
      refine ⟨fun c hc => hmade c (hc.old hnew), hvalue.trans hsem, hgrants.trans hzero, ?_⟩
      simpa [hpost] using hposts
    · obtain ⟨hnonneg, hfree, hpermits⟩ := hp.balanced c (hmade.old hnew) hc v (hvalue ▸ hv)
      refine ⟨hnonneg, fun hpos => hcontents.trans (hfree hpos), ?_⟩
      simpa [hgrants, hpost] using hpermits
    · rcases List.mem_cons.mp hx with rfl | hx
      · rw [hpass] at hx'
        cases hx'
      · exact hp.waiting c (hmade.old hnew) hc x hx hx'
    · rw [hhist]
      exact handsOver_append es hp.hands hrem
  | pass v hpass hpost hnew hid hsem hv hvalue hhist =>
    obtain ⟨hcontents, hremoved⟩ := hq.sem_same [] hq' hhist rfl rfl
    refine hp.live hsem hid hnew (fun _ => hv) (hhist ▸ hp.hands) fun c hbalanced w hw => ?_
    obtain ⟨hnonneg, hfree, hpermits⟩ := hbalanced
    cases hvalue.symm.trans hw
    refine ⟨by omega, fun _ => hcontents.trans (hfree hv), ?_⟩
    rw [grants_cons, posts_cons, hpass, hpost, hremoved]
    rw [grants] at hpermits
    simp only [if_true, Int.natCast_add, Int.cast_ofNat_Int, Bool.false_eq_true, if_false,
      Nat.add_zero]
    omega
  | block t v hpass hpost hnew hid hsem hv hvalue hhist =>
    have hhands : HandsOver i s'.hist := by
      rw [hhist]
      exact handsOver_append [_] hp.hands rfl
    refine hp.live hsem hid hnew (by simp [hpass]) hhands fun c hbalanced w hw => ?_
    obtain ⟨hnonneg, hfree, hpermits⟩ := hbalanced
    cases hvalue.symm.trans hw
    refine ⟨hnonneg, fun hpos => absurd hpos hv, ?_⟩
    have hremoved : removedAt (.sem i) s'.hist = removedAt (.sem i) s.hist := by rw [hhist]; rfl
    simpa [grants, hpass, hpost, hremoved] using hpermits
  | hand p t v hpass hpost hnew hid hsem hvalue hcount hhist =>
    refine hp.live hsem hid hnew (by simp [hpass]) (hhist ▸ hp.hands.hand)
      fun c hbalanced w hw => ?_
    obtain ⟨hnonneg, hfree, hpermits⟩ := hbalanced
    cases hvalue.symm.trans hw
    refine ⟨hnonneg, fun hpos => ?_, ?_⟩
    · rw [hfree hpos] at hcounter
      exact absurd hcounter (ne_of_gt hcount)
    · have hremoved : removedAt (.sem i) s'.hist = removedAt (.sem i) s.hist ++ [t] := by
        simp [hhist, removedAt]
      rw [grants_cons, posts_cons, hpass, hpost, hremoved]
      rw [grants] at hpermits
      simp only [Bool.false_eq_true, if_false, if_true, Nat.add_zero, List.length_append,
        List.length_cons, List.length_nil, Nat.zero_add, Int.natCast_add, Int.cast_ofNat_Int]
      omega
  | post v hpass hpost hnew hid hsem hvalue hcount hhist =>
    obtain ⟨hcontents, hremoved⟩ := hq.sem_same [] hq' hhist rfl rfl
    refine hp.live hsem hid hnew (by simp [hpass]) (hhist ▸ hp.hands) fun c hbalanced w hw => ?_
    obtain ⟨hnonneg, hfree, hpermits⟩ := hbalanced
    cases hvalue.symm.trans hw
    refine ⟨by omega, fun _ => ?_, ?_⟩
    · rw [hcontents, ← List.length_eq_zero_iff]
      rw [State.semaphoreWaiters, hcounter] at hcount
      omega
    · rw [grants_cons, posts_cons, hpass, hpost, hremoved]
      rw [grants] at hpermits
      simp only [Bool.false_eq_true, if_false, if_true, Nat.add_zero, Int.natCast_add,
        Int.cast_ofNat_Int]
      omega
  | create c hpass hpost hnew hi hid hvalue hhist =>
    have hlt : s.semaphoreID < i := hi ▸ Nat.lt_succ_self _
    obtain ⟨hnever, hsem, hzero, hposts⟩ := hp.unmade hlt
    obtain ⟨hcontents, hremoved⟩ := hq.sem_same (i := i) [] hq' hhist rfl rfl
    have hnone : s.contents (.sem i) = [] := by
      simp [State.contents, Store.contents, hq.sem i hlt]
    refine ⟨fun hlt => absurd hlt (hid ▸ Nat.lt_irrefl i), fun d hmade hd v hv => ?_,
      fun d hmade hd x hx hx' => ?_, hhist ▸ hp.hands⟩
    · obtain rfl := (hnew d).mp ((madeWith_cons.mp hmade).resolve_left (hnever d))
      cases hvalue.symm.trans hv
      refine ⟨hd, fun _ => hcontents.trans hnone, ?_⟩
      rw [grants] at hzero
      rw [grants_cons, posts_cons, hpass, hpost, hremoved, hposts]
      simp only [Bool.false_eq_true, if_false, Nat.add_zero, Int.natCast_add, Int.cast_ofNat_Int,
        Int.add_zero]
      omega
    · rcases List.mem_cons.mp hx with rfl | hx
      · exact hnone
      · have hpos := List.countP_pos_iff.mpr ⟨x, hx, hx'⟩
        rw [grants] at hzero
        omega
  | destroy v hpass hpost hnew hid hsem hvalue hhist =>
    refine hp.live hsem hid hnew (by simp [hpass]) (hhist ▸ hp.hands) fun c hbalanced w hw => ?_
    rw [hvalue] at hw
    cases hw

/-- Semaphores that have not been created have no value. -/
theorem Prepared.sem_none (h : Prepared s) (hi : s.semaphoreID < i) : s.semaphores i = none := by
  refine h.invariant (I := fun a => ∀ j, a.semaphoreID < j → a.semaphores j = none)
    (fun cap => by simp [loaded]) (fun call a b ha hcall => ?_) i hi
  cases call with
  | lock =>
    cases hcall
    exact ha
  | cond lock =>
    simp only [mainCall, newCond, Option.bind_eq_bind, Option.bind_eq_some_iff,
      Option.some.injEq] at hcall
    obtain ⟨_, -, rfl⟩ := hcall
    exact ha
  | sem count =>
    cases hcall
    intro j hj
    have hlt : a.semaphoreID + 1 < j := hj
    simpa [newSem, ne_of_gt hlt] using ha j (Nat.lt_of_succ_lt hlt)

theorem Initial.permitsOk (h : Initial s) (i : SemId) : PermitsOk s i [] s := by
  have hq : QueuesOk WaitQueues s := h.queuesOk
  obtain ⟨f, v, p, hb⟩ := h.begun
  have hinserted : insertedAt (.sem i) s.hist = [] := by simp [hb.hist, insertedAt]
  have hremoved : removedAt (.sem i) s.hist = [] := by simp [hb.hist, removedAt]
  have hcontents : s.contents (.sem i) = [] := by
    have hhist := (hq.contents (mem_semQueue (i := i))).2
    rw [hinserted, hremoved] at hhist
    simpa using hhist.symm
  have hmade : ∀ c, MadeWith s [] i c ↔ s.semaphores i = some c := fun c => by simp [MadeWith]
  refine ⟨fun hi => ?_, fun c hc hpos w hw => ?_, fun _ _ _ x hx => absurd hx List.not_mem_nil, ?_⟩
  · have hnone : s.semaphores i = none := by
      obtain ⟨a, f, v, p, store, ha, -, -, rfl⟩ := h.spec
      exact ha.sem_none hi
    exact ⟨fun c hc => by simp [hmade, hnone] at hc, hnone, by simp [grants, hremoved], rfl⟩
  · cases ((hmade c).mp hc).symm.trans hw
    exact ⟨hpos, fun _ => hcontents, by simp [grants, hremoved]⟩
  · intro pre t post hhist
    simp [hhist, removedAt_append, removedAt] at hremoved

theorem queuesOk_of_path (h₀ : Initial s₀) (hpath : Path (step .statement) s₀ path s) :
    QueuesOk WaitQueues s := by
  have hrun : Run (step .statement) AnyTiming s₀ s := hpath.run fun _ _ => trivial
  exact queuesOk_of_run h₀ (fun _ => steady_waitQueues) hrun

theorem permitsOk_of_path (h₀ : Initial s₀) (hpath : Path (step .statement) s₀ path s) :
    PermitsOk s₀ i path s := by
  induction hpath with
  | nil => exact h₀.permitsOk i
  | snoc hinit hmove ih =>
    exact ((step_trans hmove).semMove i).permitsOk (queuesOk_of_path h₀ hinit)
      (queuesOk_of_path h₀ (.snoc hinit hmove)) ih

/-- A semaphore created with a count `c` that is not negative: its value is never
negative, is positive only without waiters, and makes up `c` and the calls of
`Semaphore_V` together with the grants. Its waiters are counted and queued in the
order in which they blocked, nobody passes while there is one, and `Semaphore_V`
makes ready whom it removes. -/
theorem permits_conserved (h₀ : Initial s₀) (hpath : Path (step .statement) s₀ path s)
    (hmade : MadeWith s₀ path i c) (hc : 0 ≤ c) (hv : s.semaphores i = some v) :
    0 ≤ v ∧ (0 < v → s.contents (.sem i) = []) ∧
    s.semaphoreWaiters i = (s.contents (.sem i)).length ∧
    v + grants i path s = c + path.countP (calls (.semaphoreV i)) ∧
    insertedAt (.sem i) s.hist = removedAt (.sem i) s.hist ++ s.contents (.sem i) ∧
    (∀ x ∈ path, passes i x = true → x.2.contents (.sem i) = []) ∧ HandsOver i s.hist := by
  have hp : PermitsOk s₀ i path s := permitsOk_of_path h₀ hpath
  have hq : QueuesOk WaitQueues s := queuesOk_of_path h₀ hpath
  obtain ⟨hcounter, hhist⟩ := hq.contents (mem_semQueue (i := i))
  obtain ⟨hnonneg, hfree, hpermits⟩ := hp.balanced c hmade hc v hv
  exact ⟨hnonneg, hfree, hcounter, hpermits, hhist, hp.waiting c hmade hc, hp.hands⟩

/-- Thread 1 takes the one permit, blocks, and is handed the next. -/
theorem permits_conserved_once :
    ∃ s₀ path s, Initial s₀ ∧ path.countP (calls (.semaphoreV 1)) = 1 ∧
      s.semaphores 1 = some 0 ∧ (0 : ℤ) + grants 1 path s = 1 + 1 := by
  obtain ⟨s₀, path, s, h₀, hpath, -, hgood⟩ := exists_tracked .statement AnyTiming [.sem 1] 127
    [.exec, .exec, .call (.tFork 0 .null 126), .exec, .exec, .call (.semaphoreP 1), .exec, .exec,
      .call (.semaphoreP 1), .exec, .exec, .exec, .call (.semaphoreV 1), .exec]
    (fun s₀ path s => s₀.semaphores 1 = some 1 && s.semaphores 1 = some 0 &&
      path.countP (calls (.semaphoreV 1)) = 1) (by decide +kernel)
  simp only [Bool.and_eq_true, decide_eq_true_eq] at hgood
  obtain ⟨⟨hmade, hvalue⟩, hposts⟩ := hgood
  have hpermits := (permits_conserved h₀ hpath (Or.inl hmade) (by decide) hvalue).2.2.2.1
  exact ⟨s₀, path, s, h₀, hposts, hvalue, by rw [hpermits, hposts]; rfl⟩

end UserThreads.Threads
