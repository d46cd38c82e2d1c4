import UserThreads.Resting
import UserThreads.TableBounds
import UserThreads.WaitLocks

/-!
Where the library has no defined result. Without `t_join`, the code that a thread
executes is stuck only where it is given an object that does not exist or an index
outside a table: the queues, the saved contexts and the arguments that the library
itself keeps are always there when they are used.
-/
namespace UserThreads.Threads

open LinkedCells Queue Runs MultilevelQueue

/-- What has been created has its queues. -/
structure Stocked (s : State) : Prop where
  conditions : ∀ c o, s.conditions c = some o → c < s.cap.conditions ∧
    ∀ p, 0 ≤ p → p < 128 → s.store.queues (.cond c p) ≠ none
  uncreated : ∀ c, s.conditions c = none → s.conditionID ≤ c
  semaphores : ∀ i v, s.semaphores i = some v → s.store.queues (.sem i) ≠ none

/-- What the library relies on when it reads a queue, a tcb or a table. -/
structure SoundOk (s : State) : Prop where
  priority : ∀ t, s.Forked t → (s.tcb t).priority < 128
  resumable : ∀ q, ∀ t ∈ s.contents q, (s.tcb t).flag = 1 ∨ (s.tcb t).context ≠ none
  ended : ∀ t, s.Ended t → s.Forked t
  queued : ∀ q, ∀ t ∈ s.contents q, s.Forked t
  stocked : Stocked s
  woken : ∀ t, .waited ∈ s.point t → (∃ c p, t ∈ s.contents (.cond c p)) ∨
    ∀ n, (s.tcb t).arg ≠ .data n

/-- The object that the next statement works on is there, and so is the level that it
forks to. -/
def State.Grounded (s : State) : Prop :=
  match s.stack with
  | .enter (.tFork _ _ p) :: _ => 0 ≤ p ∧ p < 128
  | .enter (.tSig c _ _) :: _ | .waiting c :: _ => s.conditions c ≠ none
  | .enter (.lockRelease l) :: _ | .spin l :: _ | .spun l :: _ => s.shared l ≠ none
  | .enter (.semaphoreP i) :: _ | .enter (.semaphoreV i) :: _
  | .enter (.semaphoreDestroy (some i)) :: _ => s.semaphores i ≠ none
  | _ => True

variable {g : Grain} {s s' s₀ : State} {m : Move} {t : Tid} {q : QRef} {f : Frame}
  {k : List Frame}

section Steps

theorem Trans.priority_lt (h : Trans g s m s')
    (hp : ∀ t, s.Forked t → (s.tcb t).priority < 128) (ht : s'.Forked t) :
    (s'.tcb t).priority < 128 := by
  have hold : t ≤ s.gThreadID → (s'.tcb t).priority < 128 := by
    intro hle
    rw [h.priority hle]
    exact hp t ⟨ht.1, hle⟩
  cases h with
  | fork f v p k k' b store hstack hslot =>
    rcases lt_or_eq_of_le ht.2 with hlt | rfl
    · exact hold (Int.lt_add_one_iff.mp hlt)
    · simpa using (hasSlot_ready hslot).2
  | _ => exact hold ht.2

/-- The dispatcher finds the tcb of a thread in a queue as it was. -/
theorem Trans.queued_tcb {r : QRef} (h : Trans g s m s') (hu : Unjoined s) (hu' : Unjoined s')
    (hold : t ∈ s.contents r) (ht : t ∈ s'.contents q) :
    (s'.tcb t).flag = (s.tcb t).flag ∧ (s'.tcb t).context = (s.tcb t).context := by
  have hcur : ∀ {f : Frame} {k : List Frame}, s.stack = f :: k → f.isSystem = false →
      t ≠ s.currentRunningThread := by
    rintro f k hstack hf rfl
    exact hu.standing.current (not_vacant hstack hf) r hold
  cases h with
  | suspend q f k next store h =>
    have hne : t ≠ s.currentRunningThread := by
      cases h with
      | yield _ hstack | timer _ hstack | wait _ _ hstack | pass _ _ _ hstack =>
        exact hcur hstack rfl
    simp [Function.update_of_ne hne]
  | fork =>
    have hne : t ≠ s.gThreadID + 1 := by
      rintro rfl
      exact hu.tids.absent_next r hold
    simp [Function.update_of_ne hne]
  | join tid k slot hstack | exit val k hstack | leave k hstack =>
    simp [Function.update_of_ne (hcur hstack rfl)]
  | sigWake c val lock k i u =>
    by_cases hu : t = u
    · subst hu
      simp
    · simp [Function.update_of_ne hu]
  | dispatchNew y u =>
    have hne : t ≠ u := by
      rintro rfl
      exact hu'.standing.current (not_vacant rfl rfl) q ht
    simp [Function.update_of_ne hne]
  | _ => exact ⟨rfl, rfl⟩

theorem Trans.resumable (h : Trans g s m s') (hu : Unjoined s) (hu' : Unjoined s')
    (hr : ∀ q, ∀ t ∈ s.contents q, (s.tcb t).flag = 1 ∨ (s.tcb t).context ≠ none)
    (ht : t ∈ s'.contents q) : (s'.tcb t).flag = 1 ∨ (s'.tcb t).context ≠ none := by
  cases h.queued hu ht with
  | old hold | moved r p hold =>
    obtain ⟨hflag, hcontext⟩ := h.queued_tcb hu hu' hold ht
    rw [hflag, hcontext]
    exact hr _ t hold
  | suspended f k next _ _ _ hcontext => exact Or.inr (by simp [hcontext])
  | new p _ hflag => exact Or.inl hflag

/-- A queue that there is stays. -/
theorem Trans.queue_kept (h : Trans g s m s') (hq : QueuesOk AllQueues s) {r : QRef}
    (hr : s.store.queues r ≠ none) : s'.store.queues r ≠ none := by
  rcases h.queues with ⟨hsame, -⟩ | ⟨hsame, -⟩ | ⟨hsame, -⟩
  · rwa [ne_eq, hsame]
  · rw [hsame r]
    · exact hr
    · rintro p rfl
      exact hr (hq.cond _ p le_rfl)
  · rw [hsame r]
    · exact hr
    · rintro rfl
      exact hr (hq.sem _ (Nat.lt_succ_self _))

section Stocked

theorem qCreate_kept {store : Store QRef Tid} {r : QRef} (hr : store.queues r ≠ none) :
    (store.qCreate q).queues r ≠ none := by
  by_cases hq : r = q
  · simp [hq, Store.qCreate]
  · rwa [qCreate_of_ne hq]

theorem condQueues_kept {c : CondId} {store : Store QRef Tid} {r : QRef} (n : ℕ)
    (hr : store.queues r ≠ none) : (condQueues c store n).queues r ≠ none := by
  induction n with
  | zero => exact hr
  | succ n ih => exact qCreate_kept ih

/-- `cond_create` makes a queue for every level. -/
theorem condQueues_there {c : CondId} {store : Store QRef Tid} {n : ℕ} {p : ℤ} (h0 : 0 ≤ p)
    (hlt : p < n) : (condQueues c store n).queues (.cond c p) ≠ none := by
  induction n with
  | zero => omega
  | succ n ih =>
    by_cases hp : p = n
    · simp [condQueues, Store.qCreate, hp]
    · exact qCreate_kept (ih (by omega))

theorem readyQueues_kept {store : Store QRef Tid} {r : QRef} (n : ℕ)
    (hr : store.queues r ≠ none) : (readyQueues store n).queues r ≠ none := by
  induction n with
  | zero => exact hr
  | succ n ih => exact qCreate_kept ih

theorem Stocked.kept (hs : Stocked s) (hcap : s'.cap = s.cap)
    (hcond : s'.conditions = s.conditions) (hid : s'.conditionID = s.conditionID)
    (hsem : ∀ i v, s'.semaphores i = some v → ∃ w, s.semaphores i = some w)
    (hqueues : ∀ r, s.store.queues r ≠ none → s'.store.queues r ≠ none) : Stocked s' where
  conditions c o ho := by
    obtain ⟨hc, hthere⟩ := hs.conditions c o (hcond ▸ ho)
    exact ⟨hcap ▸ hc, fun p h0 hlt => hqueues _ (hthere p h0 hlt)⟩
  uncreated c hnone := hid ▸ hs.uncreated c (hcond ▸ hnone)
  semaphores i v hv := by
    obtain ⟨w, hw⟩ := hsem i v hv
    exact hqueues _ (hs.semaphores i w hw)

theorem Stocked.newCond {lock : Option LockId} (hs : Stocked s)
    (hid : s.conditionID < s.cap.conditions) (hcap : s'.cap = s.cap)
    (hstore : s'.store = condQueues s.conditionID s.store 128)
    (hcond : s'.conditions = Function.update s.conditions s.conditionID (some ⟨lock⟩))
    (hnext : s'.conditionID = s.conditionID + 1) (hsem : s'.semaphores = s.semaphores) :
    Stocked s' where
  conditions c o ho := by
    rw [hcap, hstore]
    by_cases hc : c = s.conditionID
    · rw [hc]
      exact ⟨hid, fun p h0 hlt => condQueues_there h0 hlt⟩
    · rw [hcond, Function.update_of_ne hc] at ho
      obtain ⟨hlt, hthere⟩ := hs.conditions c o ho
      exact ⟨hlt, fun p h0 hlt => condQueues_kept 128 (hthere p h0 hlt)⟩
  uncreated c hnone := by
    have hc : c ≠ s.conditionID := by
      rintro rfl
      simp [hcond] at hnone
    rw [hcond, Function.update_of_ne hc] at hnone
    rw [hnext]
    exact lt_of_le_of_ne (hs.uncreated c hnone) (Ne.symm hc)
  semaphores i v hv := by
    rw [hstore]
    exact condQueues_kept 128 (hs.semaphores i v (hsem ▸ hv))

theorem Stocked.newSem {count : ℤ} (hs : Stocked s) (hcap : s'.cap = s.cap)
    (hstore : s'.store = s.store.qCreate (.sem (s.semaphoreID + 1)))
    (hcond : s'.conditions = s.conditions) (hid : s'.conditionID = s.conditionID)
    (hsem : s'.semaphores = Function.update s.semaphores (s.semaphoreID + 1) (some count)) :
    Stocked s' where
  conditions c o ho := by
    rw [hcap, hstore]
    obtain ⟨hlt, hthere⟩ := hs.conditions c o (hcond ▸ ho)
    exact ⟨hlt, fun p h0 hlt => qCreate_kept (hthere p h0 hlt)⟩
  uncreated c hnone := hid ▸ hs.uncreated c (hcond ▸ hnone)
  semaphores i v hv := by
    rw [hstore]
    by_cases hi : i = s.semaphoreID + 1
    · simp [hi, Store.qCreate]
    · rw [hsem, Function.update_of_ne hi] at hv
      exact qCreate_kept (hs.semaphores i v hv)

theorem Trans.stocked (h : Trans g s m s') (hq : QueuesOk AllQueues s) (hs : Stocked s) :
    Stocked s' := by
  have hsame : s'.cap = s.cap → s'.conditions = s.conditions → s'.conditionID = s.conditionID →
      (∀ i v, s'.semaphores i = some v → ∃ w, s.semaphores i = some w) → Stocked s' :=
    fun hcap hcond hid hsem => hs.kept hcap hcond hid hsem fun _ => h.queue_kept hq
  have hold : ∀ {j : SemId} {w : ℤ} {o : Option ℤ}, s.semaphores j = some w → ∀ i v,
      Function.update s.semaphores j o i = some v → ∃ w, s.semaphores i = some w :=
    fun hw => some_of_update (fun _ v hv => ⟨v, hv⟩) fun _ => ⟨_, hw⟩
  cases h with
  | newCond lock k hstack hid => exact hs.newCond hid rfl rfl rfl rfl rfl
  | newSem count k hstack => exact hs.newSem rfl rfl rfl rfl rfl
  | semValue op j k w w' hstack hsem =>
    exact hsame rfl rfl rfl (hold hsem)
  | semFree j k w hstack hsem =>
    exact hsame rfl rfl rfl (hold hsem)
  | _ => exact hsame rfl rfl rfl fun _ v hv => ⟨v, hv⟩

theorem Prepared.stocked (h : Prepared s) : Stocked s := by
  refine h.invariant (fun cap => ⟨by simp [loaded], by simp [loaded], by simp [loaded]⟩) ?_
  intro call a b ha hcall
  cases call with
  | lock =>
    cases hcall
    exact ha.kept rfl rfl rfl (fun _ v hv => ⟨v, hv⟩) fun _ hr => hr
  | cond lock =>
    simp only [mainCall, newCond, Option.bind_eq_bind, Option.bind_eq_some_iff,
      Option.some.injEq] at hcall
    obtain ⟨_, hid, rfl⟩ := hcall
    exact ha.newCond (of_guard hid) rfl rfl rfl rfl rfl
  | sem count =>
    cases hcall
    exact ha.newSem rfl rfl rfl rfl rfl

end Stocked

section Woken

variable {c : CondId} {p : ℤ}

theorem lockPtr_ne_data (lock : Option LockId) (n : ℕ) : lockPtr lock ≠ .data n := by
  cases lock <;> simp [lockPtr]

/-- Nothing but `t_sig` gives a thread that is there another argument. -/
theorem Trans.arg_cases (h : Trans g s m s') (hnew : t ≠ s.gThreadID + 1) :
    (s'.tcb t).arg = (s.tcb t).arg ∨ ∃ lock, (s'.tcb t).arg = lockPtr lock := by
  have hupdate : ∀ (u : Tid) (b : Tcb), b.arg = (s.tcb u).arg →
      (Function.update s.tcb u b t).arg = (s.tcb t).arg := by
    intro u b hb
    by_cases ht : t = u
    · rw [ht, Function.update_self, hb]
    · rw [Function.update_of_ne ht]
  cases h with
  | sigWake c val lock k i u =>
    by_cases ht : t = u
    · subst ht
      exact Or.inr ⟨lock, by simp⟩
    · exact Or.inl (by simp [Function.update_of_ne ht])
  | fork => exact Or.inl (congrArg Tcb.arg (Function.update_of_ne hnew ..))
  | suspend | join | exit | leave | dispatchNew => exact Or.inl (hupdate _ _ rfl)
  | _ => exact Or.inl rfl

/-- Who leaves the queue of a condition has been given a lock or NULL. -/
theorem Trans.leaves_cond (h : Trans g s m s') (hu : Unjoined s)
    (ht : t ∈ s.contents (.cond c p)) :
    t ∈ s'.contents (.cond c p) ∨ ∃ lock, (s'.tcb t).arg = lockPtr lock := by
  cases hu.shift h with
  | keep _ hcontents => exact Or.inl (hcontents ▸ ht)
  | suspend q _ _ _ _ hcontents | fork q _ _ _ hcontents =>
    rw [hcontents, mem_append_iff]
    exact Or.inl (Or.inl ht)
  | wake q r u rest _ _ _ _ hhead hcontents _ hhist =>
    by_cases hne : t = u
    · subst hne
      cases h with
      | sigWake c' val lock k i u =>
        simp only [List.cons.injEq, Event.inserted.injEq, Event.removed.injEq] at hhist
        obtain ⟨⟨-, rfl⟩, -⟩ := hhist
        exact Or.inr ⟨lock, by simp⟩
      | semWake i k v u =>
        simp only [List.cons.injEq, Event.inserted.injEq, Event.removed.injEq] at hhist
        obtain ⟨-, ⟨rfl, -⟩, -⟩ := hhist
        have honce := hu.standing.of_mem ht
        exact absurd (hhead ▸ List.mem_cons_self ..) (honce.2 (.sem i) (by simp))
      | fork | dispatchNew => simp at hhist
      | control m k b es h =>
        have hlength := congrArg List.length hhist
        cases h <;> simp only [List.length_append, List.length_cons, List.length_nil] at hlength <;>
          omega
      | _ =>
        have hlength := congrArg List.length hhist
        simp only [List.length_cons] at hlength
        omega
    · rw [hcontents, mem_append_iff, mem_take_iff hhead hne]
      exact Or.inl (Or.inl ht)
  | dispatch y u rest _ _ hhead _ hcontents =>
    rw [hcontents, Levels.set_of_ne (by simp)]
    exact Or.inl ht

/-- A control move leaves a thread waiting only below where it was waiting below. -/
theorem Control.waited_below {b : Bool} {es : List Event} (h : Control s m k b es)
    (hm : m ≠ .expire) (hk : .waited ∈ k) : .waited ∈ s.stack.tail := by
  cases h with
  | expire => exact absurd rfl hm
  | nullReturn _ _ hstack | ret _ _ hstack | waitedNull _ hstack | handled _ hstack =>
    rwa [hstack]
  | enable f k hstack hf =>
    rw [hstack]
    simpa using hk
  | joinDone _ _ hstack | waitLock _ _ _ hstack | waitNull _ _ hstack | sigNone _ _ _ _ hstack
  | sigEmpty _ _ _ _ _ hstack | acquire _ _ hstack | forked _ _ hstack | joined _ _ hstack
  | waitedLock _ _ hstack | spinBusy _ _ _ hstack | spinFree _ _ hstack | resumed _ hstack =>
    rw [hstack]
    simpa using hk
  | _ => simp at hk

/-- A thread that executes comes to wait at a condition only by suspending itself there. -/
theorem Trans.comes_to_wait (h : Trans g s m s') (hr : Regular s) (hexec : s.Executes m)
    (hf : .waited ∈ s'.point s.currentRunningThread) :
    ∃ c, s'.hist = .inserted (.cond c s.current.priority) s.currentRunningThread :: s.hist := by
  have hw := hr.shaped.stack
  obtain ⟨hm, f₀, k₀, hstack₀, hf₀, hf₀'⟩ := id hexec
  have hbelow : .waited ∉ s.stack.tail := by
    intro hmem
    rw [hstack₀] at hw hmem
    rcases hw.below_mem hf₀ hmem with h | ⟨_, h⟩ | ⟨_, h⟩ <;> cases h
  -- what is pushed is not the wait, and below it is what was below
  have hpush : ∀ {f f' : Frame} {k : List Frame}, s.stack = f :: k → f' ≠ .waited →
      .waited ∉ f' :: k := by
    intro f f' k hstack hne hmem
    rw [hstack] at hbelow
    rcases List.mem_cons.mp hmem with heq | hmem
    · exact hne heq.symm
    · exact hbelow hmem
  have hsystem : ∀ {f' : Frame} {k : List Frame}, s.stack = f' :: k → f'.isSystem ≠ true := by
    intro f' k hstack hf'
    rw [hstack] at hstack₀
    cases hstack₀
    rw [hf'] at hf₀'
    cases hf₀'
  cases h with
  | control m k b es h =>
    rcases State.mem_point hf with ⟨-, hmem⟩ | ⟨hnil, -⟩
    · exact absurd (h.waited_below hm hmem) hbelow
    · obtain ⟨hown, hne⟩ := hexec.own
      rw [(h.body_nil hr.shaped.stack (hnil rfl)).1] at hown
      exact absurd hown.symm hne
  | suspend q f' k next store h =>
    rcases State.mem_point hf with ⟨-, hmem⟩ | ⟨-, k', hk', hmem⟩
    · cases h <;> simp at hmem
    · simp only [Function.update_self, Option.some.injEq] at hk'
      subst hk'
      cases h with
      | wait c k hstack => exact ⟨c, rfl⟩
      | yield k hstack | timer k hstack | pass _ _ k hstack =>
        exact absurd hmem (hpush hstack (by simp))
  | join tid k slot hstack =>
    rcases State.mem_point hf with ⟨-, hmem⟩ | ⟨-, k', hk', hmem⟩
    · simp at hmem
    · simp only [Function.update_self, Option.some.injEq] at hk'
      subst hk'
      exact absurd hmem (hpush hstack (by simp))
  | exit | leave =>
    rcases State.mem_point hf with ⟨-, hmem⟩ | ⟨-, k', hk', -⟩
    · simp at hmem
    · simp at hk'
  | fork _ _ _ k _ _ _ hstack _ _ _ _ hk =>
    rcases hk with ⟨-, rfl, -⟩ | ⟨-, rfl, -⟩ <;>
      rcases State.mem_point hf with ⟨-, hmem⟩ | ⟨hnil, -⟩
    · rcases List.mem_cons.mp hmem with heq | hmem
      · cases heq
      · exact absurd hmem (hpush hstack (by simp))
    · exact absurd (hnil rfl) (body_own_ne_nil rfl rfl)
    · exact absurd hmem (hpush hstack (by simp))
    · exact absurd (hnil rfl) (body_own_ne_nil rfl rfl)
  | dispatchNew _ _ _ _ hstack | dispatchOld _ _ _ _ _ hstack => exact absurd rfl (hsystem hstack)
  | unlock _ _ _ hstack | lock _ _ _ hstack | sigWake _ _ _ _ _ _ _ _ hstack
  | semWake _ _ _ _ _ _ hstack | semValue _ _ _ _ _ hstack | semFree _ _ _ hstack
  | newLock _ hstack | newCond _ _ hstack | newSem _ _ hstack =>
    rcases State.mem_point hf with ⟨-, hmem⟩ | ⟨hnil, -⟩
    · exact absurd hmem (hpush hstack (by simp))
    · exact absurd (hnil rfl) (body_own_ne_nil rfl rfl)
  | record | insertWhole | insertCall | inserting | inserted | counted =>
    rcases State.mem_point hf with ⟨-, hmem⟩ | ⟨hnil, -⟩
    · simp at hmem
    · exact absurd (hnil rfl) (body_own_ne_nil rfl rfl)

theorem Calm.point_spare (hc : Calm s) (ht : s.gThreadID < t) : s.point t = [] := by
  obtain ⟨hentries, -, hnew⟩ := hc.lives.starts.unmade t ht
  by_contra hne
  rcases hc.lives.starts.entered t hne with hmem | hentered
  · exact hnew (Or.inr hmem)
  · exact hentered hentries

theorem Trans.woken (h : Trans g s m s') (hc : Calm s) (hq : QueuesOk AllQueues s')
    (hw : ∀ t, .waited ∈ s.point t → (∃ c p, t ∈ s.contents (.cond c p)) ∨
      ∀ n, (s.tcb t).arg ≠ .data n) (ht : .waited ∈ s'.point t) :
    (∃ c p, t ∈ s'.contents (.cond c p)) ∨ ∀ n, (s'.tcb t).arg ≠ .data n := by
  have hlock : (∃ lock, (s'.tcb t).arg = lockPtr lock) → ∀ n, (s'.tcb t).arg ≠ .data n := by
    rintro ⟨lock, harg⟩ n
    rw [harg]
    exact lockPtr_ne_data lock n
  rcases h.point hc.lives.regular.parked t with hsame | ⟨rfl, hexec⟩ | ⟨-, hstart⟩ | ⟨-, hnil⟩
  · rw [hsame] at ht
    have hnew : t ≠ s.gThreadID + 1 := by
      rintro rfl
      simp [hc.point_spare (lt_next _)] at ht
    rcases hw t ht with ⟨c, p, hmem⟩ | harg
    · exact (h.leaves_cond hc.unjoined hmem).imp (fun hmem => ⟨c, p, hmem⟩) hlock
    · refine Or.inr ?_
      rcases h.arg_cases hnew with hkept | hgiven
      · rwa [hkept]
      · exact hlock hgiven
  · obtain ⟨c, hhist⟩ := h.comes_to_wait hc.lives.regular hexec ht
    refine Or.inl ⟨c, s.current.priority, ?_⟩
    rw [hc.unjoined.queues.contents_inserted hq trivial [s.currentRunningThread]
      (by simp [hhist, insertedAt]) (by simp [hhist, removedAt])]
    exact List.mem_append_right _ (List.mem_singleton.mpr rfl)
  · simp [hstart] at ht
  · simp [hnil] at ht

end Woken

theorem Calm.ended_step (hc : Calm s) (h : Trans g s m s') (he : ∀ t, s.Ended t → s.Forked t)
    (ht : s'.Ended t) : s'.Forked t := by
  have hforked : s.Forked t := by
    rcases h.ends ht with hold | ⟨rfl, ⟨hstack, -⟩ | ⟨val, k, hstack, -⟩⟩
    · exact he t hold
    · exact hc.forked_top hstack rfl rfl
    · exact hc.forked_top hstack rfl rfl
  exact ⟨hforked.1, hforked.2.trans h.gThreadID_le⟩

/-- Who is on the processor has been forked. -/
theorem Calm.on_processor (hc : Calm s) (he : ∀ t, s.Ended t → s.Forked t) (hv : ¬ s.Vacant) :
    s.Forked s.currentRunningThread := by
  by_cases hbody : body s.stack = []
  · exact he _ (hc.unjoined.ended.stack hv (by simp [hbody, phase]))
  · exact hc.forked_current hbody

theorem Calm.queued_step (hc : Calm s) (hc' : Calm s') (h : Trans g s m s')
    (he : ∀ t, s.Ended t → s.Forked t) (hq : ∀ q, ∀ t ∈ s.contents q, s.Forked t)
    (ht : t ∈ s'.contents q) : s'.Forked t := by
  refine ⟨?_, hc'.unjoined.tids.booked.fits_of_mem ht⟩
  cases h.queued hc.unjoined ht with
  | old hold => exact (hq q t hold).1
  | moved r p hold => exact (hq r t hold).1
  | suspended f k next hcur hsus =>
    obtain ⟨f', hstack⟩ := hsus.stack
    have hf : f'.isSystem = false := by
      cases hsus with
      | yield _ h | timer _ h | wait _ _ h | pass _ _ _ h =>
        rw [hstack] at h
        cases h
        rfl
    exact hcur ▸ (hc.on_processor he (not_vacant hstack hf)).1
  | new p heq => exact heq ▸ Int.lt_add_one_of_le hc.lives.exits.next

theorem SoundOk.step (hs : SoundOk s) (hc : Calm s) (hc' : Calm s') (h : Trans g s m s') :
    SoundOk s' where
  priority _ ht := h.priority_lt hs.priority ht
  resumable _ _ ht := h.resumable hc.unjoined hc'.unjoined hs.resumable ht
  ended _ ht := hc.ended_step h hs.ended ht
  queued _ _ ht := hc.queued_step hc' h hs.ended hs.queued ht
  stocked := h.stocked hc.unjoined.queues hs.stocked
  woken _ ht := h.woken hc hc'.unjoined.queues hs.woken ht

theorem Initial.stocked (h : Initial s) : Stocked s := by
  obtain ⟨a, f, v, p, store, ha, -, hins, rfl⟩ := h.spec
  refine ha.stocked.kept rfl rfl rfl (fun _ v hv => ⟨v, hv⟩) fun r hr => ?_
  rw [ne_eq, qInsert_none hins]
  exact readyQueues_kept 128 hr

theorem Initial.soundOk (h : Initial s) : SoundOk s := by
  have hq : QueuesOk AllQueues s := h.queuesOk
  obtain ⟨a, f', v', p', store, -, hslot, -, heq⟩ := h.spec
  obtain ⟨f, v, p, hb⟩ := h.begun
  have hone : ∀ t, s.Forked t → t = 1 :=
    fun t ht => le_antisymm (hb.gThreadID ▸ ht.2) (Int.add_one_le_of_lt ht.1)
  have hqueued : ∀ q, ∀ t ∈ s.contents q, t = 1 := by
    intro q t ht
    rw [hb.contents hq, mem_append_iff] at ht
    exact (ht.resolve_left List.not_mem_nil).2
  refine ⟨fun t ht => ?_, fun q t ht => Or.inl ?_, fun t ht => ?_, fun q t ht => ?_, h.stocked,
    fun t ht => ?_⟩
  · rw [hone t ht, heq]
    simpa using (hasSlot_ready hslot).2
  · simp [hqueued q t ht, hb.tcb]
  · simp [State.Ended, hb.hist] at ht
  · rw [hqueued q t ht]
    exact ⟨Int.one_pos, le_of_eq hb.gThreadID.symm⟩
  · simp [h.point t] at ht

theorem soundOk_of_run (h₀ : Initial s₀) (hrun : Run (step g) NoJoins s₀ s) :
    Calm s ∧ SoundOk s :=
  hrun.invariant (I := fun s => Calm s ∧ SoundOk s)
    ⟨calm_of_run h₀ (show Run (step g) NoJoins s₀ s₀ from .refl _), h₀.soundOk⟩
    fun _ _ _ hI hm hstep =>
      have hc := hI.1.step hm hstep
      ⟨hc, hI.2.step hI.1 hc (step_trans hstep)⟩

end Steps

section Defined

variable {good : QRef → Prop} {fits : QRef → Tid → Prop} {owner : Addr → Option QRef}
  {store : Store QRef Tid} {counter : QRef → ℤ} {fresh : Addr} {hist : List Event} {a : State}

theorem Ledger.can_insert (h : Ledger good fits owner store counter fresh hist) (hq : good q)
    (hthere : store.queues q ≠ none) (t : Tid) : (store.qInsert q fresh t).isSome = true := by
  obtain ⟨xs, hchain, -⟩ := h.queue q hq
  obtain ⟨store', hins, -⟩ := (hchain.holds hthere).qInsert h.free t
  simp [hins]

/-- A queue whose counter is not 0 is there and has a head. -/
theorem Ledger.can_remove (h : Ledger good fits owner store counter fresh hist) (hq : good q)
    (hcount : counter q ≠ 0) : store.queues q ≠ none ∧
      ∃ t store', store.qRemove q = some (some t, store') ∧ t ∈ store.contents q := by
  obtain ⟨xs, hchain, hlength, -⟩ := h.queue q hq
  cases xs with
  | nil => exact absurd hlength hcount
  | cons x rest =>
    have hholds : Holds store q (x :: rest) := hchain.resolve_left fun hnone => by simp at hnone
    obtain ⟨store', hrem, -⟩ := Holds.qRemove (a := x.1) (x := x.2) hholds
    refine ⟨by simp [hholds.record], x.2, store', hrem, ?_⟩
    simp [hholds.contents_eq]

/-- The queues inside a routine: on the books, and those of the levels there. -/
structure Shelved (a : State) : Prop where
  ledger : ∃ owner hist, Ledger AllQueues (fun _ _ => True) owner a.store a.counter a.fresh hist
  ready : ∀ p, a.store.queues (.ready p) = none ↔ ¬ (0 ≤ p ∧ p < 128)

theorem QueuesOk.shelved (h : QueuesOk AllQueues s) (hstore : a.store = s.store)
    (hcounter : a.counter = s.counter) (hfresh : a.fresh = s.fresh) : Shelved a := by
  obtain ⟨owner, hl, -⟩ := h.booked
  refine ⟨⟨owner, s.hist, ?_⟩, fun p => ?_⟩
  · rwa [hstore, hcounter, hfresh]
  · rw [hstore, h.ready]

theorem Shelved.enqueue (h : Shelved a) :
    (a.enqueue q t).isSome = true ↔ a.cap.hasSlot q = true ∧ a.store.queues q ≠ none := by
  obtain ⟨owner, hist, hl⟩ := h.ledger
  constructor
  · intro henq
    obtain ⟨b, hb⟩ := Option.isSome_iff_exists.mp henq
    obtain ⟨hslot, store, hins, -⟩ := enqueue_spec hb
    exact ⟨hslot, queue_of_qInsert hins⟩
  · rintro ⟨hslot, hthere⟩
    obtain ⟨store, hins⟩ := Option.isSome_iff_exists.mp (hl.can_insert trivial hthere t)
    simp [State.enqueue, hslot, hins]

/-- A thread can be made ready at the levels that there are. -/
theorem Shelved.enqueue_ready (h : Shelved a) {p : ℤ} :
    (a.enqueue (.ready p) t).isSome = true ↔ 0 ≤ p ∧ p < 128 := by
  rw [h.enqueue]
  simp [Capacity.hasSlot, h.ready]

/-- A queue whose counter is not 0 gives its head away. -/
theorem Shelved.dequeue (h : Shelved a) (hslot : a.cap.hasSlot q = true)
    (hcount : a.counter q ≠ 0) :
    ∃ t b, a.dequeue q = some (t, b) ∧ t ∈ a.contents q ∧ b.tcb = a.tcb ∧ Shelved b := by
  obtain ⟨owner, hist, hl⟩ := h.ledger
  obtain ⟨-, t, store, hrem, hmem⟩ := hl.can_remove trivial hcount
  refine ⟨t, { a with
    store := store, counter := Function.update a.counter q (a.counter q - 1)
    hist := .removed q t :: a.hist }, by simp [State.dequeue, hslot, hrem], hmem, rfl,
    ⟨owner, _, hl.remove hrem⟩, fun p => ?_⟩
  rw [← h.ready p]
  exact qRemove_none hrem

theorem isSome_bind {α β : Type} {x : Option α} {next : α → Option β}
    (h : ∀ b, (next b).isSome = true) : (x.bind next).isSome = x.isSome := by
  cases x with
  | none => rfl
  | some b => exact h b

theorem tFork_isSome (hq : QueuesOk AllQueues s) {func : ThreadFunc} {v : AnyPtr} {p : ℤ} :
    (tFork k s func v p).isSome = true ↔ 0 ≤ p ∧ p < 128 := by
  simp only [tFork, Option.bind_eq_bind]
  rw [isSome_bind]
  · refine Shelved.enqueue_ready ?_
    exact hq.shelved rfl rfl rfl
  · intro b
    split <;> rfl

theorem tYield_isSome (hq : QueuesOk AllQueues s) :
    (tYield k s).isSome = true ↔ 0 ≤ s.current.priority ∧ s.current.priority < 128 := by
  simp only [tYield, Option.bind_eq_bind, setjmp_priority]
  rw [isSome_bind fun _ => rfl]
  refine Shelved.enqueue_ready ?_
  exact hq.shelved rfl rfl rfl

theorem timerHandler_isSome (hq : QueuesOk AllQueues s) :
    (timerHandler k s).isSome = true ↔ 0 ≤ s.current.priority ∧ s.current.priority < 128 := by
  simp only [timerHandler, Option.bind_eq_bind, setjmp_priority]
  rw [isSome_bind fun _ => rfl]
  refine Shelved.enqueue_ready ?_
  exact hq.shelved rfl rfl rfl

theorem tWaitBlock_isSome {c : CondId} (hq : QueuesOk AllQueues s) :
    (tWaitBlock k s c).isSome = true ↔ s.cap.hasSlot (.cond c s.current.priority) = true ∧
      s.store.queues (.cond c s.current.priority) ≠ none := by
  simp only [tWaitBlock, Option.bind_eq_bind, setjmp_priority]
  rw [isSome_bind fun _ => rfl]
  refine Shelved.enqueue ?_
  exact hq.shelved rfl rfl rfl

theorem SoundOk.level (hs : SoundOk s) (hh : HomeOk s) (ht : s.Forked t) :
    0 ≤ (s.tcb t).priority ∧ (s.tcb t).priority < 128 :=
  ⟨hh.priority t ht, hs.priority t ht⟩

/-- `t_sig` finds the queue of the level it has chosen, its head, and the head's level. -/
theorem tSig_isSome {c : CondId} {lock : Option LockId} (hq : QueuesOk AllQueues s)
    (hs : SoundOk s) (hh : HomeOk s) :
    (tSig k s c lock).isSome = true ↔ s.conditions c ≠ none := by
  have ha : Shelved s.disableTimer := hq.shelved rfl rfl rfl
  cases hcond : s.conditions c with
  | none => simp [tSig, State.disableTimer, hcond]
  | some o =>
    refine iff_of_true ?_ (by simp)
    obtain ⟨hlt, hthere⟩ := hs.stocked.conditions c o hcond
    have hcond' : s.disableTimer.conditions c = some o := hcond
    have hlt' : c < s.disableTimer.cap.conditions := hlt
    simp only [tSig, Option.bind_eq_bind, hcond', Option.bind_some, guard, hlt', if_true,
      Option.pure_def]
    split
    · rfl
    · rename_i i hscan
      obtain ⟨h0, h128, hcount, -⟩ := scan_spec hscan
      have hslot : s.disableTimer.cap.hasSlot (.cond c i) = true := by
        simpa [Capacity.hasSlot] using ⟨hlt', h0, h128⟩
      obtain ⟨t, b, hdeq, hmem, htcb, hb⟩ := ha.dequeue hslot hcount
      have ht := hs.level hh (hs.queued _ t hmem)
      obtain ⟨Q, hQ⟩ := Option.ne_none_iff_exists'.mp (hthere i h0 h128)
      have hempty : s.disableTimer.store.qIsEmpty (.cond c i) = some (decide (Q.numObj = 0)) := by
        simp [Store.qIsEmpty, State.disableTimer, hQ]
      simp only [hempty, hdeq, Option.bind_some]
      split
      · rfl
      · rw [isSome_bind fun _ => rfl]
        refine (Shelved.enqueue_ready ?_).mpr ?_
        · exact ⟨hb.ledger, hb.ready⟩
        · simpa [State.setTcb, htcb, State.disableTimer] using ht

theorem hasSlot_sem {cap : Capacity} {i : SemId} :
    cap.hasSlot (.sem i) = true ↔ i < cap.semaphores := decide_eq_true_iff

theorem semaphoreV_isSome {i : SemId} {v : ℤ} (hq : QueuesOk AllQueues s)
    (hlevel : 0 ≤ s.current.priority ∧ s.current.priority < 128)
    (hsem : s.semaphores i = some v) :
    (semaphoreV k s i).isSome = true ↔ i < s.cap.semaphores := by
  have ha : Shelved s.disableTimer := hq.shelved rfl rfl rfl
  have hsem' : s.disableTimer.semaphores i = some v := hsem
  simp only [semaphoreV, Option.bind_eq_bind, hsem', Option.bind_some, guard, Option.pure_def]
  by_cases hi : i < s.cap.semaphores
  · have hslot : s.disableTimer.cap.hasSlot (.sem i) = true := hasSlot_sem.mpr hi
    refine iff_of_true ?_ hi
    simp only [hslot, if_true, Option.bind_some]
    split
    · rename_i hcount
      obtain ⟨t, b, hdeq, -, htcb, hb⟩ := ha.dequeue hslot (ne_of_gt hcount)
      obtain ⟨-, store, -, rfl⟩ := dequeue_spec hdeq
      simp only [hdeq, Option.bind_some]
      rw [isSome_bind fun _ => rfl]
      exact hb.enqueue_ready.mpr hlevel
    · rfl
  · have hslot : ¬ s.disableTimer.cap.hasSlot (.sem i) = true := fun h => hi (hasSlot_sem.mp h)
    exact iff_of_false (by simp [hslot]) hi

theorem semaphoreP_isSome {i : SemId} {v : ℤ} (hq : QueuesOk AllQueues s) (hs : SoundOk s)
    (hsem : s.semaphores i = some v) :
    (semaphoreP k s i).isSome = true ↔ (¬ 0 < v → i < s.cap.semaphores) := by
  have hsem' : s.disableTimer.semaphores i = some v := hsem
  simp only [semaphoreP, Option.bind_eq_bind, hsem', Option.bind_some]
  split
  · rename_i hv
    exact iff_of_true rfl fun hnot => absurd hv hnot
  · rename_i hv
    have ha : Shelved (s.disableTimer.setjmp (.passed :: k)) := hq.shelved rfl rfl rfl
    rw [isSome_bind fun _ => rfl, ha.enqueue]
    simp [hasSlot_sem, State.setjmp, State.setTcb, State.disableTimer, hv,
      hs.stocked.semaphores i v hsem]

/-- `Scheduler` finds the head of the level it has chosen, and where to go on with it. -/
theorem scheduler_isSome (hq : QueuesOk AllQueues s)
    (hs : ∀ q, ∀ t ∈ s.contents q, (s.tcb t).flag = 1 ∨ (s.tcb t).context ≠ none) :
    (scheduler s).isSome = true := by
  have ha : Shelved s.disableTimer := hq.shelved rfl rfl rfl
  simp only [scheduler, Option.bind_eq_bind]
  split
  · rfl
  · rename_i y hscan
    obtain ⟨h0, h128, hcount, -⟩ := scan_spec hscan
    have hslot : s.disableTimer.cap.hasSlot (.ready y) = true := by
      simpa [Capacity.hasSlot] using ⟨h0, h128⟩
    obtain ⟨t, b, hdeq, hmem, htcb, -⟩ := ha.dequeue hslot hcount
    simp only [hdeq, Option.bind_some, dispatch]
    split
    · rfl
    · rename_i hflag
      have hcontext : (b.tcb t).context ≠ none := by
        rw [htcb]
        refine (hs _ t hmem).resolve_left fun hone => hflag ?_
        simpa [State.current, htcb, State.disableTimer] using hone
      obtain ⟨k', hk'⟩ := Option.ne_none_iff_exists'.mp hcontext
      simp [State.current, hk']

theorem inBounds_of_none (h : s.tableEntry = none) : s.InBounds := by
  simp [State.InBounds, h]

theorem inBounds_iff {table : Table} {i : ℕ} (h : s.tableEntry = some (table, i)) :
    s.InBounds ↔ i < table.size s.cap := by
  simp [State.InBounds, h]

/-- What the call of a routine needs. -/
theorem enter_isSome {op : Op} (hc : Calm s) (hs : SoundOk s) (hstack : s.stack = .enter op :: k) :
    (enter op k s).isSome = true ↔ s.InBounds ∧ s.Grounded := by
  have hq := hc.unjoined.queues
  have hlevel : 0 ≤ s.current.priority ∧ s.current.priority < 128 :=
    hs.level hc.home (hc.forked_top hstack rfl rfl)
  cases op with
  | tFork func v p =>
    rw [enter, tFork_isSome hq]
    simp [inBounds_of_none, State.tableEntry, State.Grounded, hstack]
  | tJoin tid => cases hc.unjoined.joinFree.top hstack
  | tYield =>
    rw [enter, tYield_isSome hq]
    simp [inBounds_of_none, State.tableEntry, State.Grounded, hstack, hlevel]
  | tSig c val lock =>
    rw [enter, tSig_isSome hq hs hc.home]
    cases hcond : s.conditions c with
    | none => simp [State.Grounded, hstack, hcond]
    | some o =>
      have hentry : s.tableEntry = some (.conditionWaiters, c) := by
        simp [State.tableEntry, hstack, hcond]
      rw [inBounds_iff hentry]
      simp [State.Grounded, hstack, hcond, Table.size, (hs.stocked.conditions c o hcond).1]
  | semaphoreP i =>
    cases hsem : s.semaphores i with
    | none => simp [enter, semaphoreP, State.disableTimer, State.Grounded, hstack, hsem]
    | some v =>
      rw [enter, semaphoreP_isSome hq hs hsem]
      by_cases hv : 0 < v
      · simp [inBounds_of_none, State.tableEntry, State.Grounded, hstack, hsem, hv]
      · have hentry : s.tableEntry = some (.semaphoreWaiters, i) := by
          simp [State.tableEntry, hstack, hsem, hv]
        rw [inBounds_iff hentry]
        simp [State.Grounded, hstack, hsem, hv, Table.size]
  | semaphoreV i =>
    cases hsem : s.semaphores i with
    | none => simp [enter, semaphoreV, State.disableTimer, State.Grounded, hstack, hsem]
    | some v =>
      have hentry : s.tableEntry = some (.semaphoreWaiters, i) := by
        simp [State.tableEntry, hstack, hsem]
      rw [enter, semaphoreV_isSome hq hlevel hsem, inBounds_iff hentry]
      simp [State.Grounded, hstack, hsem, Table.size]
  | semaphoreDestroy sem =>
    rw [and_iff_right (inBounds_of_none (by simp [State.tableEntry, hstack]))]
    cases sem with
    | none => simp [enter, semaphoreDestroy, State.Grounded, hstack]
    | some i =>
      cases hsem : s.semaphores i <;>
        simp [enter, semaphoreDestroy, State.disableTimer, State.Grounded, hstack, hsem]
  | lockRelease l =>
    rw [and_iff_right (inBounds_of_none (by simp [State.tableEntry, hstack]))]
    cases hshared : s.shared l <;>
      simp [enter, lockRelease, State.disableTimer, State.Grounded, hstack, hshared]
  | condCreate lock mem =>
    cases mem with
    | false => simp [enter, condCreate, inBounds_of_none, State.tableEntry, State.Grounded, hstack]
    | true =>
      have hentry : s.tableEntry = some (.conditionRecord, s.conditionID) := by
        simp [State.tableEntry, hstack]
      rw [inBounds_iff hentry]
      by_cases hid : s.conditionID < s.cap.conditions <;>
        simp [enter, condCreate, newCond, State.disableTimer, State.Grounded, hstack, Table.size,
          hid]
  | tWait | tExit | lockAcquire | lockCreate | semaphoreCreate =>
    simp [enter, inBounds_of_none, State.tableEntry, State.Grounded, hstack]

/-- The thread that goes on behind its wait has been woken, by a `t_sig` that has left a
lock or NULL for it. -/
theorem SoundOk.tWaitResume_isSome (hs : SoundOk s) (hc : Calm s)
    (hstack : s.stack = .waited :: k) : (tWaitResume k s).isSome = true := by
  have hpoint : .waited ∈ s.point s.currentRunningThread := by
    rw [point_own hstack rfl rfl]
    exact List.mem_cons_self ..
  rcases hs.woken _ hpoint with ⟨c, p, hmem⟩ | harg
  · exact absurd hmem (hc.unjoined.standing.current (not_vacant hstack rfl) _)
  · unfold tWaitResume
    split
    · rfl
    · rfl
    · rename_i n hdata
      exact absurd hdata (harg n)

theorem SoundOk.tWaitBlock_iff {c : CondId} (hs : SoundOk s) (hc : Calm s)
    (hstack : s.stack = .waiting c :: k) :
    (tWaitBlock k s c).isSome = true ↔ s.InBounds ∧ s.Grounded := by
  obtain ⟨h0, h128⟩ := hs.level hc.home (hc.forked_top hstack rfl rfl)
  rw [tWaitBlock_isSome hc.unjoined.queues]
  cases hcond : s.conditions c with
  | none =>
    have hnone := hc.unjoined.queues.cond c s.current.priority (hs.stocked.uncreated c hcond)
    simp [State.Grounded, hstack, hcond, hnone]
  | some o =>
    obtain ⟨hlt, hthere⟩ := hs.stocked.conditions c o hcond
    have hentry : s.tableEntry = some (.conditionWaiters, c) := by
      simp [State.tableEntry, hstack, hcond]
    rw [inBounds_iff hentry]
    simp only [State.Grounded, hstack, hcond, Table.size]
    exact iff_of_true ⟨by simpa [Capacity.hasSlot] using ⟨hlt, h0, h128⟩, hthere _ h0 h128⟩
      ⟨hlt, by simp⟩

theorem WellShaped.alone (h : WellShaped (f :: k)) (hf : f.isBase = true) : k = [] := by
  cases h with
  | base => rfl
  | call hcall => simp [Frame.isCall, hf] at hcall
  | fork hin => cases f <;> simp_all [Frame.isBase, Frame.inFork]
  | wait hin => cases f <;> simp_all [Frame.isBase, Frame.inWait]
  | timer htimer => cases f <;> simp_all [Frame.isBase, Frame.isTimer]

/-- Without `t_join` and without an expiry in the epilogue of `incrementStack`, what a thread
executes has no defined result exactly when it works on an object that is not there, forks to a
level that is not there, or leaves a table: the queues, the contexts and the arguments that the
library keeps are there. -/
theorem exec_defined_iff (h₀ : Initial s₀)
    (hrun : Run (step g) (fun m s => NoJoins m s ∧ EpilogueWhole m s) s₀ s)
    (huser : s.stack ≠ [.user]) (hdone : s.stack ≠ [.done]) :
    (step g .exec s).isSome = true ↔ s.InBounds ∧ s.Grounded := by
  obtain ⟨hc, hs⟩ := soundOk_of_run h₀ (hrun.mono fun _ _ hok => hok.1)
  have hq := hc.unjoined.queues
  have hw := hc.lives.regular.shaped.stack
  cases hstack : s.stack with
  | nil => rw [hstack] at hw; cases hw
  | cons f k =>
    rw [hstack] at hw
    have hfree : (exec g s).isSome = true → s.tableEntry = none → s.Grounded →
        ((step g .exec s).isSome = true ↔ s.InBounds ∧ s.Grounded) :=
      fun hsome hentry hground => iff_of_true hsome ⟨inBounds_of_none hentry, hground⟩
    cases f with
    | user => exact absurd (hstack.trans (congrArg _ (hw.alone rfl))) huser
    | done => exact absurd (hstack.trans (congrArg _ (hw.alone rfl))) hdone
    | enter op =>
      rw [step, exec, hstack]
      exact enter_isSome hc hs hstack
    | waiting c =>
      rw [step, exec, hstack]
      exact hs.tWaitBlock_iff hc hstack
    | waited =>
      refine hfree ?_ (by simp [State.tableEntry, hstack]) (by simp [State.Grounded, hstack])
      simpa [exec, hstack] using hs.tWaitResume_isSome hc hstack
    | handler =>
      refine hfree ?_ (by simp [State.tableEntry, hstack]) (by simp [State.Grounded, hstack])
      have hforked := hc.on_processor hs.ended (not_vacant hstack rfl)
      simpa [exec, hstack] using (timerHandler_isSome hq).mpr (hs.level hc.home hforked)
    | sched =>
      refine hfree ?_ (by simp [State.tableEntry, hstack]) (by simp [State.Grounded, hstack])
      simpa [exec, hstack] using scheduler_isSome hq hs.resumable
    | spin l =>
      rw [and_iff_right (inBounds_of_none (by simp [State.tableEntry, hstack]))]
      cases hshared : s.shared l with
      | none => simp [step, exec, spin, State.Grounded, hstack, hshared]
      | some v => by_cases hv : v = 0 <;>
          simp [step, exec, spin, State.Grounded, hstack, hshared, hv]
    | spun l =>
      rw [and_iff_right (inBounds_of_none (by simp [State.tableEntry, hstack]))]
      cases hshared : s.shared l <;>
        simp [step, exec, lockAcquire, State.Grounded, hstack, hshared]
    | wake i waked =>
      by_cases hloop : i < 50 ∨ waked = true
      · have hentry : s.tableEntry = none := by simp [State.tableEntry, hstack, hloop]
        refine hfree ?_ hentry (by simp [State.Grounded, hstack])
        simp only [exec, hstack, wake]
        split_ifs <;> simp_all
      · have hentry : s.tableEntry = some (.exitedThreadIDs, s.exitedThreadIDs.length) := by
          simp [State.tableEntry, hstack, hloop]
        obtain ⟨hi, hwaked⟩ := not_or.mp hloop
        rw [inBounds_iff hentry]
        by_cases hcap : s.exitedThreadIDs.length < s.cap.exited <;>
          simp [step, exec, wake, State.Grounded, hstack, hi, hwaked, Table.size, hcap]
    | wakeTest | wakeTake | insert | inserting => cases hc.unjoined.joinFree.top hstack
    | _ =>
      refine hfree ?_ (by simp [State.tableEntry, hstack]) (by simp [State.Grounded, hstack])
      simp [exec, hstack]

/-- The first thread destroys a semaphore and then blocks on it. -/
theorem exec_defined_iff_destroyed :
    ∃ s₀ s, Initial s₀ ∧ Run (step .statement) (fun m s => NoJoins m s ∧ EpilogueWhole m s) s₀ s ∧
      s.stack = [.enter (.semaphoreP 1), .user] ∧ s.semaphores 1 = none ∧
      ((step .statement .exec s).isSome = true ↔ s.InBounds ∧ s.Grounded) := by
  obtain ⟨s₀, s, h₀, hrun, hgood⟩ := exists_run .statement
    (fun m s => NoJoins m s ∧ EpilogueWhole m s) [.sem 0] 127
    [.exec, .exec, .call (.semaphoreDestroy (some 1)), .exec, .exec, .call (.semaphoreP 1)]
    (fun s => s.stack = [.enter (.semaphoreP 1), .user] && s.semaphores 1 = none)
    (by decide +kernel)
  simp only [Bool.and_eq_true, decide_eq_true_eq] at hgood
  obtain ⟨hstack, hsem⟩ := hgood
  exact ⟨s₀, s, h₀, hrun, hstack, hsem,
    exec_defined_iff h₀ hrun (by simp [hstack]) (by simp [hstack])⟩

end Defined

end UserThreads.Threads
