import UserThreads.Stacks

/-!
Executions of the machine: they begin where `t_start` calls `Scheduler`. The
timer may fire at any program point (`AnyTiming`), or only while the running
thread executes its own code, so that every routine is one atomic step
(`Atomic`).
-/
namespace UserThreads.Threads

open LinkedCells Queue Runs

/-- The timer fires whenever it is not blocked. -/
def AnyTiming : Move → State → Prop := fun _ _ => True

/-- The timer fires only in the thread's own code. -/
def Atomic : Move → State → Prop := fun m s => m = .expire → s.stack = [.user]

instance (m : Move) (s : State) : Decidable (AnyTiming m s) := inferInstanceAs (Decidable True)

instance (m : Move) (s : State) : Decidable (Atomic m s) :=
  inferInstanceAs (Decidable (_ → _))

/-- The thread has returned from `lock_acquire` of the lock, or from the one in
`t_wait`, and has not released the lock since. -/
def holdsLock (t : Tid) (l : LockId) : List Event → Bool
  | [] => false
  | .acquired u l' :: rest => if u = t ∧ l' = l then true else holdsLock t l rest
  | .released u l' _ :: rest => if u = t ∧ l' = l then false else holdsLock t l rest
  | _ :: rest => holdsLock t l rest

/-- `main` has made some calls after the program was loaded. -/
def Prepared (s : State) : Prop :=
  ∃ (cap : Capacity) (calls : List MainCall), calls.foldlM mainCall (loaded cap) = some s

/-- The invariant rule for the calls of `main`. -/
theorem Prepared.invariant {I : State → Prop} {s : State} (h : Prepared s)
    (hloaded : ∀ cap, I (loaded cap))
    (hcall : ∀ call a b, I a → mainCall a call = some b → I b) : I s := by
  obtain ⟨cap, calls, h⟩ := h
  have hfold : ∀ (calls : List MainCall) (a : State), I a →
      calls.foldlM mainCall a = some s → I s := by
    intro calls
    induction calls with
    | nil =>
      intro a ha h
      cases h
      exact ha
    | cons call rest ih =>
      intro a ha h
      simp only [List.foldlM_cons, Option.bind_eq_bind, Option.bind_eq_some_iff] at h
      obtain ⟨b, hb, h⟩ := h
      exact ih b (hcall call a b ha hb) h
  exact hfold calls _ (hloaded cap) h

/-- What `main` leaves behind: objects have been created and nothing has run. -/
structure Created (s : State) : Prop where
  stack : s.stack = []
  tcb : s.tcb = fun _ => {}
  counter : s.counter = fun _ => 0
  current : s.currentRunningThread = 0
  gThreadID : s.gThreadID = 0
  hist : s.hist = []
  tcbWaiting : s.tcbWaiting = fun _ => none
  exited : s.exitedThreadIDs = []
  fresh : s.fresh = 0
  shared : ∀ l v, s.shared l = some v → v = 0
  unmade : ∀ l, s.lockCount ≤ l → s.shared l = none

variable {s s' : State}

theorem Created.mainCall {call : MainCall} (hs : Created s) (h : mainCall s call = some s') :
    Created s' := by
  cases call with
  | lock =>
    cases h
    refine ⟨hs.stack, hs.tcb, hs.counter, hs.current, hs.gThreadID, hs.hist, hs.tcbWaiting,
      hs.exited, hs.fresh, ?_, ?_⟩
    · intro l v hv
      by_cases hl : l = s.lockCount
      · simpa [newLock, hl] using hv.symm
      · exact hs.shared l v (by simpa [newLock, hl] using hv)
    · intro l hl
      have hlt : s.lockCount < l := hl
      simpa [newLock, ne_of_gt hlt] using hs.unmade l (le_of_lt hlt)
  | cond lock =>
    simp only [Threads.mainCall, newCond, Option.bind_eq_bind, Option.bind_eq_some_iff,
      Option.some.injEq] at h
    obtain ⟨_, -, rfl⟩ := h
    exact ⟨hs.stack, hs.tcb, hs.counter, hs.current, hs.gThreadID, hs.hist, hs.tcbWaiting,
      hs.exited, hs.fresh, hs.shared, hs.unmade⟩
  | sem count =>
    cases h
    exact ⟨hs.stack, hs.tcb, hs.counter, hs.current, hs.gThreadID, hs.hist, hs.tcbWaiting,
      hs.exited, hs.fresh, hs.shared, hs.unmade⟩

theorem Prepared.created (h : Prepared s) : Created s :=
  h.invariant (fun _ => ⟨rfl, rfl, rfl, rfl, rfl, rfl, rfl, rfl, rfl, by simp [loaded],
    fun _ _ => rfl⟩) fun _ _ _ ha hcall => ha.mainCall hcall

/-- What `t_start` makes of the state that `main` leaves behind. -/
theorem tStart_spec {a : State} {f : ThreadFunc} {v : AnyPtr} {p : ℤ} (ha : Created a)
    (h : tStart f v p a = some s) :
    ∃ store : Store QRef Tid, a.cap.hasSlot (.ready p) = true ∧
      (readyQueues a.store 128).qInsert (.ready p) a.fresh 1 = some store ∧
      s = { a with
        stack := [.sched], blocked := true, store := store, fresh := a.fresh + 1, gThreadID := 1
        tcb := Function.update a.tcb 1 { func := f, arg := v, priority := p, flag := 1 }
        counter := Function.update a.counter (.ready p) (a.counter (.ready p) + 1)
        hist := [.inserted (.ready p) 1, .forked 1 f v p] } := by
  simp only [tStart, Option.bind_eq_bind, Option.bind_eq_some_iff, Option.some.injEq] at h
  obtain ⟨b, hfork, rfl⟩ := h
  simp only [tFork, Option.bind_eq_bind, Option.bind_eq_some_iff] at hfork
  obtain ⟨c, henq, hfork⟩ := hfork
  obtain ⟨hslot, store, hins, rfl⟩ := enqueue_spec henq
  simp only [State.log, State.setTcb, State.disableTimer, ha.gThreadID, Int.zero_add] at hslot hins
  refine ⟨store, hslot, hins, ?_⟩
  split at hfork <;> cases hfork <;>
    simp [State.log, State.setTcb, State.disableTimer, State.enableTimer, State.goto,
      ha.gThreadID, ha.hist]

/-- The first state of an execution, in terms of what `main` has created. -/
theorem Initial.spec (h : Initial s) :
    ∃ (a : State) (f : ThreadFunc) (v : AnyPtr) (p : ℤ) (store : Store QRef Tid), Prepared a ∧
      a.cap.hasSlot (.ready p) = true ∧
      (readyQueues a.store 128).qInsert (.ready p) a.fresh 1 = some store ∧
      s = { a with
        stack := [.sched], blocked := true, store := store, fresh := a.fresh + 1, gThreadID := 1
        tcb := Function.update a.tcb 1 { func := f, arg := v, priority := p, flag := 1 }
        counter := Function.update a.counter (.ready p) (a.counter (.ready p) + 1)
        hist := [.inserted (.ready p) 1, .forked 1 f v p] } := by
  obtain ⟨cap, calls, f, v, p, h⟩ := h
  obtain ⟨a, hcalls, hstart⟩ := Option.bind_eq_some_iff.mp h
  have hprepared : Prepared a := ⟨cap, calls, hcalls⟩
  obtain ⟨store, hspec⟩ := tStart_spec hprepared.created hstart
  exact ⟨a, f, v, p, store, hprepared, hspec⟩

/-- The first thread has been made ready and nothing else has happened. -/
structure Begun (s : State) (f : ThreadFunc) (v : AnyPtr) (p : ℤ) : Prop where
  stack : s.stack = [.sched]
  tcb : s.tcb =
    Function.update (fun _ => {}) 1 { func := f, arg := v, priority := p, flag := 1 }
  current : s.currentRunningThread = 0
  gThreadID : s.gThreadID = 1
  hist : s.hist = [.inserted (.ready p) 1, .forked 1 f v p]
  tcbWaiting : s.tcbWaiting = fun _ => none
  exited : s.exitedThreadIDs = []

theorem Initial.begun (h : Initial s) : ∃ f v p, Begun s f v p := by
  obtain ⟨a, f, v, p, store, ha, -, -, rfl⟩ := h.spec
  have hcreated := ha.created
  exact ⟨f, v, p, rfl, by rw [hcreated.tcb], hcreated.current, rfl, rfl, hcreated.tcbWaiting,
    hcreated.exited⟩

theorem Initial.shaped (h : Initial s) : Shaped s := by
  obtain ⟨a, f, v, p, store, ha, -, -, rfl⟩ := h.spec
  refine ⟨.base rfl, ?_⟩
  intro t k hk
  by_cases ht : t = 1
  · subst t
    simp at hk
  · simp [Function.update_of_ne ht, ha.created.tcb] at hk

variable {g : Grain} {ok : Move → State → Prop} {s₀ : State}

section Computed

/-- The state in which `Scheduler` begins when `main` makes these calls and
starts function 0 with priority `p`. -/
def booted (calls : List MainCall) (p : ℤ) : Option State :=
  (calls.foldlM mainCall (loaded {})).bind (tStart 0 .null p)

/-- An execution is found by computing it. -/
theorem exists_path (g : Grain) (ok : Move → State → Prop) [∀ m s, Decidable (ok m s)]
    (calls : List MainCall) (p : ℤ) (ms : List Move) (good : State → Bool)
    (h : ((booted calls p).bind (play (step g) ok ms)).any good = true) :
    ∃ s₀ l s, Initial s₀ ∧ Path (step g) s₀ l s ∧ (∀ x ∈ l, ok x.1 x.2) ∧ good s = true := by
  obtain ⟨s, hs, hgood⟩ := (Option.any_eq_true ..).mp h
  obtain ⟨s₀, h₀, hplay⟩ := Option.bind_eq_some_iff.mp hs
  obtain ⟨l, hpath, hl⟩ := path_of_play hplay
  exact ⟨s₀, l, s, ⟨{}, calls, 0, .null, p, h₀⟩, hpath, hl, hgood⟩

theorem exists_run (g : Grain) (ok : Move → State → Prop) [∀ m s, Decidable (ok m s)]
    (calls : List MainCall) (p : ℤ) (ms : List Move) (good : State → Bool)
    (h : ((booted calls p).bind (play (step g) ok ms)).any good = true) :
    ∃ s₀ s, Initial s₀ ∧ Run (step g) ok s₀ s ∧ good s = true := by
  obtain ⟨s₀, l, s, h₀, hpath, hl, hgood⟩ := exists_path g ok calls p ms good h
  exact ⟨s₀, s, h₀, hpath.run hl, hgood⟩

/-- The same with a test of the first state and of the path. -/
theorem exists_tracked (g : Grain) (ok : Move → State → Prop) [∀ m s, Decidable (ok m s)]
    (calls : List MainCall) (p : ℤ) (ms : List Move)
    (good : State → List (Move × State) → State → Bool)
    (h : (booted calls p).any (fun s₀ =>
      (track (step g) ok ms [] s₀).any fun x => good s₀ x.1 x.2) = true) :
    ∃ s₀ l s, Initial s₀ ∧ Path (step g) s₀ l s ∧ (∀ x ∈ l, ok x.1 x.2) ∧
      good s₀ l s = true := by
  obtain ⟨s₀, h₀, h⟩ := (Option.any_eq_true ..).mp h
  obtain ⟨⟨l, s⟩, htrack, hgood⟩ := (Option.any_eq_true ..).mp h
  obtain ⟨hpath, hl⟩ := path_of_track (.nil s₀) (fun _ hx => absurd hx List.not_mem_nil) htrack
  exact ⟨s₀, l, s, ⟨{}, calls, 0, .null, p, h₀⟩, hpath, hl, hgood⟩

end Computed

end UserThreads.Threads
