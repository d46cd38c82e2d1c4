import UserThreads.Points

/-!
Mutual exclusion of `lock_acquire` and `lock_release`. A lock that some thread
holds reads 1, as long as only its holder releases it; so the exclusion can only
be lost by a store of 1 over a lock that was taken after the test of the busy
loop. With releases by holders only, that is the exact condition.
-/
namespace UserThreads.Threads

open LinkedCells Queue Runs

/-- No two threads hold the same lock. -/
def Exclusive (s : State) : Prop :=
  ∀ t u l, holdsLock t l s.hist = true → holdsLock u l s.hist = true → t = u

/-- `lock_release` is called on a lock that no other thread holds. -/
def ReleasesOwn (m : Move) (s : State) : Prop :=
  m = .exec → ∀ l k, s.stack = .enter (.lockRelease l) :: k →
    ∀ u, holdsLock u l s.hist = true → u = s.currentRunningThread

/-- `lock_acquire` stores 1 into a lock that is still 0. -/
def StoresFree (m : Move) (s : State) : Prop :=
  m = .exec → ∀ l k, s.stack = .spun l :: k → s.shared l = some 0

/-- The locks and their holders. A thread past the test of the busy loop does
not hold the lock it is about to take. -/
structure LocksOk (s : State) : Prop where
  unmade : ∀ l, s.lockCount ≤ l → s.shared l = none
  value : ∀ l v, s.shared l = some v → v = 0 ∨ v = 1
  held : ∀ t l, holdsLock t l s.hist = true → s.shared l = some 1
  taken : ∀ l, s.shared l = some 1 → ∃ t, holdsLock t l s.hist = true
  past : ∀ t l, .spun l ∈ s.point t → holdsLock t l s.hist = false

variable {g : Grain} {s s' : State} {m : Move} {t u : Tid} {l l' : LockId}

/-- What a move does to the locks and to their holders. -/
inductive LockMove (s s' : State) : Move → Prop
  | none (m : Move) (hshared : s'.shared = s.shared) (hcount : s'.lockCount = s.lockCount)
      (hholds : ∀ t l, holdsLock t l s'.hist = holdsLock t l s.hist)
      (hstack : ∀ l k, m = .exec → s.stack ≠ .spun l :: k) : LockMove s s' m
  | acquire (l : LockId) (k : List Frame) (v : ℤ) (hstack : s.stack = .spun l :: k)
      (hold : s.shared l = some v) (hshared : s'.shared = Function.update s.shared l (some 1))
      (hcount : s'.lockCount = s.lockCount)
      (hhist : s'.hist = .acquired s.currentRunningThread l :: s.hist) : LockMove s s' .exec
  | release (l : LockId) (k : List Frame) (v : ℤ) (c : Option CondId)
      (hstack : s.stack = .enter (.lockRelease l) :: k) (hold : s.shared l = some v)
      (hshared : s'.shared = Function.update s.shared l (some 0))
      (hcount : s'.lockCount = s.lockCount)
      (hhist : s'.hist = .released s.currentRunningThread l c :: s.hist) : LockMove s s' .exec
  | create (k : List Frame) (hstack : s.stack = .enter (.lockCreate true) :: k)
      (hshared : s'.shared = Function.update s.shared s.lockCount (some 0))
      (hcount : s'.lockCount = s.lockCount + 1) (hhist : s'.hist = s.hist) : LockMove s s' .exec

theorem Trans.lockMove (h : Trans g s m s') : LockMove s s' m := by
  have hother : ∀ {f : Frame} {k : List Frame} {m : Move}, s.stack = f :: k →
      (∀ l, f ≠ .spun l) → ∀ l k, m = .exec → s.stack ≠ .spun l :: k := by
    intro f k m hstack hf l k' _ hstack'
    rw [hstack] at hstack'
    cases hstack'
    exact hf l rfl
  cases h with
  | lock l k v hstack hshared => exact .acquire l k v hstack hshared rfl rfl rfl
  | unlock l k v hstack hshared => exact .release l k v _ hstack hshared rfl rfl rfl
  | newLock k hstack => exact .create k hstack rfl rfl rfl
  | control m k b es h =>
    refine .none m rfl rfl ?_ ?_
    · intro t l
      cases h <;> rfl
    · cases h with
      | expire | call | finish => simp
      | enable f k hstack hf => exact hother hstack (by rcases hf with rfl | rfl | rfl <;> simp)
      | joinDone _ _ hstack | waitLock _ _ _ hstack | waitNull _ _ hstack | sigNone _ _ _ _ hstack
      | sigEmpty _ _ _ _ _ hstack | acquire _ _ hstack | nullReturn _ _ hstack | ret _ _ hstack
      | forked _ _ hstack | joined _ _ hstack | waitedNull _ hstack | waitedLock _ _ hstack
      | spinBusy _ _ _ hstack | spinFree _ _ hstack | resumed _ hstack | handled _ hstack
      | start _ hstack | wakeSkip _ _ _ hstack | wakeHit _ _ _ hstack | wakeEnd _ _ hstack
      | testHit _ _ _ hstack | testMiss _ _ _ hstack | take _ _ _ hstack | sitBottom _ hstack
      | idle _ hstack =>
        exact hother hstack (by simp)
  | suspend q f k next store h =>
    refine .none _ rfl rfl (fun _ _ => rfl) ?_
    cases h with
    | yield _ hstack | timer _ hstack | wait _ _ hstack | pass _ _ _ hstack =>
      exact hother hstack (by simp)
  | fork _ _ _ _ _ _ _ hstack | join _ _ _ hstack | sigWake _ _ _ _ _ _ _ _ hstack
  | semWake _ _ _ _ _ _ hstack | semValue _ _ _ _ _ hstack | semFree _ _ _ hstack
  | newCond _ _ hstack | newSem _ _ hstack | exit _ _ hstack | leave _ hstack
  | record _ _ hstack | insertWhole _ _ _ _ _ hstack | insertCall _ _ _ _ _ _ hstack
  | inserting _ _ _ _ _ _ _ _ _ hstack | inserted _ _ _ _ _ _ _ hstack
  | counted _ _ _ _ _ _ hstack | dispatchNew _ _ _ _ hstack | dispatchOld _ _ _ _ _ hstack =>
    exact .none _ rfl rfl (fun _ _ => rfl) (hother hstack (by simp))

theorem holdsLock_acquired {hist : List Event}
    (h : holdsLock t l (.acquired u l' :: hist) = true) :
    u = t ∧ l' = l ∨ holdsLock t l hist = true := by
  rw [holdsLock] at h
  split_ifs at h with hsame
  · exact Or.inl hsame
  · exact Or.inr h

theorem holdsLock_released {hist : List Event} {c : Option CondId}
    (h : holdsLock t l (.released u l' c :: hist) = true) :
    ¬ (u = t ∧ l' = l) ∧ holdsLock t l hist = true := by
  rw [holdsLock] at h
  split_ifs at h with hsame
  exact ⟨hsame, h⟩

/-- A thread comes to be past the test only by finding the lock free. -/
theorem Trans.spun_mem (h : Trans g s m s') (hr : Regular s) (hspun : .spun l ∈ s'.point t) :
    (s.shared l = some 0 ∧ ∃ k, s.stack = .spin l :: k) ∨
      .spun l ∈ s.point t ∧ ¬ (t = s.currentRunningThread ∧ s.Executes m) := by
  by_cases hexec : t = s.currentRunningThread ∧ s.Executes m
  · obtain ⟨rfl, hexec⟩ := hexec
    left
    cases h.arrives hr hexec hspun with
    | below _ hf =>
      obtain ⟨-, f, k, hstack, htimer, -⟩ := hexec
      have hw := hr.shaped.stack
      rw [hstack] at hw hf
      rcases hw.below_mem htimer hf with hf | ⟨_, hf⟩ | ⟨_, hf⟩ <;> cases hf
    | spun _ k hstack hshared => exact ⟨hshared, k, hstack⟩
    | other _ hnot => exact absurd rfl (hnot l)
  · right
    refine ⟨?_, hexec⟩
    rcases h.point hr.parked t with hsame | hexec' | ⟨-, hstart⟩ | ⟨-, hnil⟩
    · exact hsame ▸ hspun
    · exact absurd hexec' hexec
    · rw [hstart] at hspun
      simp at hspun
    · rw [hnil] at hspun
      cases hspun

/-- A thread past the test still does not hold the lock, if no thread but one that
executes past its own test comes to hold a lock. -/
private theorem past_of_spun_mem (h : Trans g s m s') (hr : Regular s) (hl : LocksOk s)
    (hmono : ∀ t l, holdsLock t l s'.hist = true →
      holdsLock t l s.hist = true ∨
        t = s.currentRunningThread ∧ m = .exec ∧ ∃ l' k, s.stack = .spun l' :: k)
    (t : Tid) (l : LockId) (hmem : .spun l ∈ s'.point t) : holdsLock t l s'.hist = false := by
  by_contra hheld
  rcases hmono t l (by simpa using hheld) with hheld | ⟨ht, rfl, l', k, hstack⟩
  · rcases h.spun_mem hr hmem with ⟨hfree, -⟩ | ⟨hmem, -⟩
    · rw [hl.held t l hheld] at hfree
      cases hfree
    · rw [hl.past t l hmem] at hheld
      cases hheld
  · rcases h.spun_mem hr hmem with ⟨-, k', hstack'⟩ | ⟨-, hnot⟩
    · rw [hstack] at hstack'
      cases hstack'
    · exact hnot ⟨ht, by simp, _, k, hstack, rfl, rfl⟩

/-- The fields of `LocksOk` that say which values locks can have, when one lock
is written. -/
private theorem values_of_write {n : ℕ} {w : ℤ} (hl : LocksOk s) (hw : w = 0 ∨ w = 1)
    (hshared : s'.shared = Function.update s.shared l (some w)) (hcount : s'.lockCount = n)
    (hle : s.lockCount ≤ n) (hlt : l < n) :
    (∀ l, s'.lockCount ≤ l → s'.shared l = none) ∧
      ∀ l v, s'.shared l = some v → v = 0 ∨ v = 1 := by
  refine ⟨?_, ?_⟩
  · intro l' hl'
    rw [hcount] at hl'
    rw [hshared, Function.update_of_ne (ne_of_gt (lt_of_lt_of_le hlt hl'))]
    exact hl.unmade l' (le_trans hle hl')
  · intro l' v hv
    rw [hshared] at hv
    by_cases hl' : l' = l
    · rw [hl', Function.update_self] at hv
      exact Option.some.inj hv ▸ hw
    · rw [Function.update_of_ne hl'] at hv
      exact hl.value l' v hv

theorem LocksOk.lt_lockCount (hl : LocksOk s) {v : ℤ} (hv : s.shared l = some v) :
    l < s.lockCount := by
  by_contra hge
  rw [hl.unmade l (not_lt.mp hge)] at hv
  cases hv

theorem Trans.locksOk (h : Trans g s m s') (hr : Regular s) (hl : LocksOk s)
    (hown : ReleasesOwn m s) : LocksOk s' := by
  cases h.lockMove with
  | none m hshared hcount hholds _ =>
    have hpast := past_of_spun_mem h hr hl fun t l ht => Or.inl (by rwa [hholds] at ht)
    refine ⟨?_, ?_, ?_, ?_, hpast⟩
    · rw [hshared, hcount]
      exact hl.unmade
    · rw [hshared]
      exact hl.value
    · intro t l ht
      rw [hshared]
      exact hl.held t l (by rwa [hholds] at ht)
    · intro l hone
      rw [hshared] at hone
      obtain ⟨t, ht⟩ := hl.taken l hone
      exact ⟨t, by rwa [hholds]⟩
  | acquire l k v hstack hold hshared hcount hhist =>
    obtain ⟨hunmade, hvalue⟩ := values_of_write hl (Or.inr rfl) hshared hcount le_rfl
      (hl.lt_lockCount hold)
    have hpast := past_of_spun_mem h hr hl fun t l' ht => by
      rw [hhist] at ht
      rcases holdsLock_acquired ht with ⟨hsame, -⟩ | ht
      · exact Or.inr ⟨hsame.symm, rfl, l, k, hstack⟩
      · exact Or.inl ht
    refine ⟨hunmade, hvalue, ?_, ?_, hpast⟩
    · intro t l' ht
      rw [hhist] at ht
      by_cases hl' : l' = l
      · rw [hl', hshared, Function.update_self]
      · rcases holdsLock_acquired ht with ⟨-, hsame⟩ | ht
        · exact absurd hsame.symm hl'
        · rw [hshared, Function.update_of_ne hl']
          exact hl.held t l' ht
    · intro l' hone
      by_cases hl' : l' = l
      · exact ⟨s.currentRunningThread, by simp [hhist, hl', holdsLock]⟩
      · rw [hshared, Function.update_of_ne hl'] at hone
        obtain ⟨t, ht⟩ := hl.taken l' hone
        refine ⟨t, ?_⟩
        rw [hhist, holdsLock, if_neg fun hsame => hl' hsame.2.symm]
        exact ht
  | release l k v c hstack hold hshared hcount hhist =>
    have hmono : ∀ t l, holdsLock t l s'.hist = true → holdsLock t l s.hist = true := by
      intro t l ht
      rw [hhist] at ht
      exact (holdsLock_released ht).2
    obtain ⟨hunmade, hvalue⟩ := values_of_write hl (Or.inl rfl) hshared hcount le_rfl
      (hl.lt_lockCount hold)
    refine ⟨hunmade, hvalue, ?_, ?_, past_of_spun_mem h hr hl fun t l ht => Or.inl (hmono t l ht)⟩
    · intro t l' ht
      by_cases hl' : l' = l
      · -- the only holder of the released lock was the running thread
        subst hl'
        have hcur := hown rfl l' k hstack t (hmono t l' ht)
        rw [hhist] at ht
        exact absurd ⟨hcur.symm, rfl⟩ (holdsLock_released ht).1
      · rw [hshared, Function.update_of_ne hl']
        exact hl.held t l' (hmono t l' ht)
    · intro l' hone
      by_cases hl' : l' = l
      · rw [hl', hshared, Function.update_self] at hone
        cases hone
      · rw [hshared, Function.update_of_ne hl'] at hone
        obtain ⟨t, ht⟩ := hl.taken l' hone
        refine ⟨t, ?_⟩
        rw [hhist, holdsLock, if_neg fun hsame => hl' hsame.2.symm]
        exact ht
  | create k hstack hshared hcount hhist =>
    obtain ⟨hunmade, hvalue⟩ := values_of_write hl (Or.inl rfl) hshared hcount (Nat.le_succ _)
      (Nat.lt_succ_self _)
    refine ⟨hunmade, hvalue, ?_, ?_, past_of_spun_mem h hr hl fun t l ht => Or.inl (hhist ▸ ht)⟩
    · intro t l' ht
      have hone := hl.held t l' (hhist ▸ ht)
      rw [hshared, Function.update_of_ne (ne_of_lt (hl.lt_lockCount hone)), hone]
    · intro l' hone
      by_cases hl' : l' = s.lockCount
      · rw [hl', hshared, Function.update_self] at hone
        cases hone
      · rw [hshared, Function.update_of_ne hl'] at hone
        rw [hhist]
        exact hl.taken l' hone

/-- A move keeps the exclusion exactly when it does not store over a taken lock. -/
theorem exclusive_step_iff (h : Trans g s m s') (hl : LocksOk s)
    (hex : Exclusive s) : Exclusive s' ↔ StoresFree m s := by
  cases h.lockMove with
  | none m hshared hcount hholds hnot =>
    refine iff_of_true ?_ fun hm l k hstack => absurd hstack (hnot l k hm)
    intro t u l ht hu
    exact hex t u l (by rwa [hholds] at ht) (by rwa [hholds] at hu)
  | acquire l k v hstack hold hshared hcount hhist =>
    constructor
    · intro hex' _ l' k' hstack'
      rw [hstack] at hstack'
      cases hstack'
      rcases hl.value l v hold with rfl | rfl
      · exact hold
      · -- its holder is another thread, which would then hold it together with this one
        obtain ⟨u, hu⟩ := hl.taken l hold
        have hne : u ≠ s.currentRunningThread := by
          intro heq
          subst heq
          have hexec : s.Executes .exec := ⟨by simp, _, k, hstack, rfl, rfl⟩
          have hpast := hl.past s.currentRunningThread l (by simp [hexec.point, hstack])
          rw [hpast] at hu
          cases hu
        refine absurd (hex' u s.currentRunningThread l ?_ ?_) hne
        · rw [hhist, holdsLock, if_neg fun hsame => hne hsame.1.symm]
          exact hu
        · simp [hhist, holdsLock]
    · intro hfree t u l' ht hu
      have hnone : ∀ u, holdsLock u l s.hist ≠ true := by
        intro u hu
        have hone := hl.held u l hu
        rw [hfree rfl l k hstack] at hone
        cases hone
      rw [hhist] at ht hu
      rcases holdsLock_acquired ht with ⟨rfl, rfl⟩ | ht
      · rcases holdsLock_acquired hu with ⟨rfl, -⟩ | hu
        · rfl
        · exact absurd hu (hnone u)
      · rcases holdsLock_acquired hu with ⟨-, rfl⟩ | hu
        · exact absurd ht (hnone t)
        · exact hex t u l' ht hu
  | release l k v c hstack hold hshared hcount hhist =>
    refine iff_of_true ?_ fun _ l' k' hstack' => ?_
    · intro t u l' ht hu
      rw [hhist] at ht hu
      exact hex t u l' (holdsLock_released ht).2 (holdsLock_released hu).2
    · rw [hstack] at hstack'
      cases hstack'
  | create k hstack hshared hcount hhist =>
    refine iff_of_true ?_ fun _ l' k' hstack' => ?_
    · rw [Exclusive, hhist]
      exact hex
    · rw [hstack] at hstack'
      cases hstack'

theorem Initial.locksOk (h : Initial s) : LocksOk s := by
  obtain ⟨a, f, v, p, store, ha, -, -, rfl⟩ := h.spec
  refine ⟨ha.created.unmade, fun l v hv => Or.inl (ha.created.shared l v hv), ?_, ?_, ?_⟩
  · intro t l ht
    simp [holdsLock] at ht
  · intro l hone
    have hzero := ha.created.shared l 1 hone
    cases hzero
  · intro t l _
    rfl

variable {s₀ : State} {path : List (Move × State)}

/-- When every release is by the holder, no two threads ever hold one lock
exactly when no store of `lock_acquire` comes after the lock was taken again. -/
theorem exclusive_iff (h₀ : Initial s₀) (hpath : Path (step .statement) s₀ path s)
    (hown : ∀ x ∈ path, ReleasesOwn x.1 x.2) :
    ((∀ x ∈ path, Exclusive x.2) ∧ Exclusive s) ↔ ∀ x ∈ path, StoresFree x.1 x.2 := by
  refine hpath.forall_iff (I := fun a => Regular a ∧ LocksOk a) (P := Exclusive)
    (C := StoresFree) hown ⟨h₀.regular, h₀.locksOk⟩ ?_ ?_
  · obtain ⟨a, f, v, p, store, ha, -, -, rfl⟩ := h₀.spec
    intro t u l ht
    simp [holdsLock] at ht
  · intro m a b hI hex hok hstep
    obtain ⟨hr, hl⟩ := hI
    have htrans := step_trans hstep
    exact ⟨exclusive_step_iff htrans hl hex,
      fun _ => ⟨htrans.regular hr, htrans.locksOk hr hl hok⟩⟩

/-- A thread is preempted in `lock_acquire` between the test and the store; a
second one takes the lock, signals a condition and is preempted in its turn. -/
def preemptedAfterTest : List Move :=
  [.exec, .exec, .call (.tFork 0 .null 127), .exec, .exec,
   .call (.lockAcquire 0), .exec, .exec, .expire, .exec, .exec, .exec, .exec,
   .call (.lockAcquire 0), .exec, .exec, .exec, .exec,
   .call (.tSig 0 .null (some 0)), .exec, .exec, .expire, .exec, .exec, .exec,
   .exec, .exec, .exec, .exec]

/-- The first thread then takes the lock as well. -/
theorem two_threads_hold :
    ∃ s₀ path s, Initial s₀ ∧ Path (step .statement) s₀ path s ∧ ¬ Exclusive s := by
  obtain ⟨s₀, path, s, h₀, hpath, -, hgood⟩ := exists_path .statement AnyTiming
    [.lock, .cond (some 0)] 127 preemptedAfterTest
    (fun s => s.stack = [.user] && (holdsLock 1 0 s.hist && holdsLock 2 0 s.hist))
    (by decide +kernel)
  simp only [Bool.and_eq_true] at hgood
  refine ⟨s₀, path, s, h₀, hpath, fun hex => ?_⟩
  have hsame := hex 1 2 0 hgood.2.1 hgood.2.2
  cases hsame

/-- Only the running thread has ever taken a lock, if it is about to release one. -/
def takenByCurrent (s : State) : Bool :=
  match s.stack with
  | .enter (.lockRelease _) :: _ => s.hist.all fun e => match e with
    | .acquired u _ => u = s.currentRunningThread
    | _ => true
  | _ => true

theorem releasesOwn_of_takenByCurrent (h : takenByCurrent s = true) : ReleasesOwn m s := by
  intro _ l k hstack u hu
  simp only [takenByCurrent, hstack] at h
  simpa using List.all_eq_true.mp h _ (holdsLock_mem hu)

/-- A thread takes the lock and gives it back. -/
theorem exclusive_iff_acquire_release :
    ∃ (s₀ : State) (path : List (Move × State)) (s : State), Initial s₀ ∧ s.stack = [.user] ∧
      (((∀ x ∈ path, Exclusive x.2) ∧ Exclusive s) ↔ ∀ x ∈ path, StoresFree x.1 x.2) := by
  obtain ⟨s₀, path, s, h₀, hpath, hok, hgood⟩ := exists_path .statement
    (fun _ s => takenByCurrent s = true) [.lock] 127
    [.exec, .exec, .call (.lockAcquire 0), .exec, .exec, .exec, .exec,
      .call (.lockRelease 0), .exec, .exec, .exec]
    (fun s => s.stack = [.user]) (by decide +kernel)
  exact ⟨s₀, path, s, h₀, by simpa using hgood,
    exclusive_iff h₀ hpath fun x hx => releasesOwn_of_takenByCurrent (hok x hx)⟩

end UserThreads.Threads
