import UserThreads.Turns

/-!
Critical sections. A thread returns from `lock_acquire` and from `t_wait` with
SIGVTALRM blocked, and keeps the processor until its next call that unblocks it.
So the statements of a program that are reached only from such a return are
executed by one thread at a time, whatever the lock holds. The `entry` places of
a section come after a call of `lock_acquire` or `t_wait`; the `inner` places
come after a statement of the section only.
-/
namespace UserThreads.Threads

open LinkedCells Queue Runs MultilevelQueue Tallies

namespace State

/-- The thread is in its own code with SIGVTALRM blocked. -/
def InSection (s : State) (t : Tid) : Prop :=
  t = s.currentRunningThread ∧ s.blocked = true ∧ s.stack = [.user]

/-- The thread is about to be. -/
def Returning (s : State) (t : Tid) : Prop :=
  t = s.currentRunningThread ∧ s.blocked = true ∧ ∃ v, s.stack = [.ret v, .user]

end State

/-- The program points of `lock_acquire` before it stores 1, and those of `t_wait`. -/
inductive Acquiring : List Frame → Prop
  | call (l : LockId) : Acquiring [.enter (.lockAcquire l), .user]
  | spin (l : LockId) : Acquiring [.spin l, .user]
  | spun (l : LockId) : Acquiring [.spun l, .user]
  | wait (c : CondId) (lock : Option LockId) : Acquiring [.enter (.tWait c lock), .user]
  | release (l : LockId) (c : CondId) : Acquiring [.enter (.lockRelease l), .waiting c, .user]
  | released (c : CondId) : Acquiring [.released, .waiting c, .user]
  | back (v : Value) (c : CondId) : Acquiring [.ret v, .waiting c, .user]
  | waiting (c : CondId) : Acquiring [.waiting c, .user]
  | waited : Acquiring [.waited, .user]

/-- Where a thread can be that is at an entry place. -/
def AtEntry (s : State) (t : Tid) : Prop :=
  Acquiring (s.point t) ∨ s.Returning t ∨ s.InSection t

section Steps

variable {g : Grain} {s s' : State} {m : Move} {t : Tid} {f : Frame} {k : List Frame}

theorem Acquiring.own (h : Acquiring k) : k ≠ [] ∧ .start ∉ k := by
  cases h <;> simp

theorem point_own (hstack : s.stack = f :: k) (hf : f.isTimer = false)
    (hf' : f.isSystem = false) : s.point s.currentRunningThread = f :: k := by
  have hbody : body s.stack = f :: k := by rw [hstack, body_own hf hf']
  rw [State.point_current (by rw [hbody]; exact List.cons_ne_nil f k), hbody]

/-- A step of the thread itself. -/
theorem acquiring_exec (h : Acquiring s.stack) (hm : MaskOk s)
    (hstep : step g .exec s = some s') : AtEntry s' s.currentRunningThread := by
  have hnext : ∀ {f : Frame} {k : List Frame}, s'.currentRunningThread = s.currentRunningThread →
      s'.stack = f :: k → f.isTimer = false → f.isSystem = false → Acquiring (f :: k) →
      AtEntry s' s.currentRunningThread := by
    intro f k hcur hstack hf hf' hk
    rw [← hcur]
    exact Or.inl (point_own hstack hf hf' ▸ hk)
  generalize hstack : s.stack = stack at h
  cases h with
  | call l =>
    simp only [step, exec, hstack, enter, Option.some.injEq] at hstep
    subst hstep
    exact hnext rfl rfl rfl rfl (.spin l)
  | spin l =>
    simp only [step, exec, hstack, spin, Option.bind_eq_bind, Option.bind_eq_some_iff]
      at hstep
    obtain ⟨v, -, hstep⟩ := hstep
    split at hstep <;> cases hstep
    · exact hnext rfl hstack rfl rfl (.spin l)
    · exact hnext rfl rfl rfl rfl (.spun l)
  | spun l =>
    simp only [step, exec, hstack, lockAcquire, Option.bind_eq_bind,
      Option.bind_eq_some_iff, Option.some.injEq] at hstep
    obtain ⟨v, -, rfl⟩ := hstep
    exact Or.inr (Or.inl ⟨rfl, rfl, _, rfl⟩)
  | wait c lock =>
    simp only [step, exec, hstack, enter, tWait, Option.some.injEq] at hstep
    subst hstep
    cases lock with
    | none => exact hnext rfl rfl rfl rfl (.waiting c)
    | some l => exact hnext rfl rfl rfl rfl (.release l c)
  | release l c =>
    simp only [step, exec, hstack, enter, lockRelease, Option.bind_eq_bind,
      Option.bind_eq_some_iff, Option.some.injEq] at hstep
    obtain ⟨v, -, rfl⟩ := hstep
    exact hnext rfl rfl rfl rfl (.released c)
  | released c =>
    simp only [step, exec, hstack, Option.some.injEq] at hstep
    subst hstep
    exact hnext rfl rfl rfl rfl (.back _ c)
  | back v c =>
    simp only [step, exec, hstack, Option.some.injEq] at hstep
    subst hstep
    exact hnext rfl rfl rfl rfl (.waiting c)
  | waiting c =>
    simp only [step, exec, hstack, tWaitBlock, Option.bind_eq_bind,
      Option.bind_eq_some_iff, Option.some.injEq] at hstep
    obtain ⟨s₁, henq, rfl⟩ := hstep
    obtain ⟨-, store, -, rfl⟩ := enqueue_spec henq
    refine Or.inl ?_
    rw [State.point_of_nil (by rfl)]
    simp only [State.goto, State.setjmp, State.setTcb, State.disableTimer, Function.update_self]
    exact .waited
  | waited =>
    have hblocked := hm.masked _ _ hstack rfl
    simp only [step, exec, hstack, tWaitResume] at hstep
    split at hstep <;> cases hstep
    · exact Or.inr (Or.inr ⟨rfl, hblocked, rfl⟩)
    · exact hnext rfl rfl rfl rfl (.spin _)

theorem Acquiring.kept (h : Acquiring (s.point t)) (hl : Lives s)
    (hstep : step g m s = some s') (hidle : t = s.currentRunningThread → ¬ s.Executes m) :
    Acquiring (s'.point t) := by
  rwa [(step_trans hstep).point_kept hl.regular hl.starts
    (hl.starts.entered_user h.own.1 h.own.2) hidle]

/-- In its own code a thread at an entry place has SIGVTALRM blocked. -/
theorem AtEntry.user (h : AtEntry s s.currentRunningThread) (hstack : s.stack = [.user]) :
    s.InSection s.currentRunningThread := by
  rcases h with hpoint | ⟨-, -, v, hstack'⟩ | hin
  · rw [point_own hstack rfl rfl] at hpoint
    cases hpoint
  · rw [hstack] at hstack'
    cases hstack'
  · exact hin

theorem AtEntry.other (h : AtEntry s t) (ht : t ≠ s.currentRunningThread) :
    Acquiring (s.point t) := by
  rcases h with hpoint | ⟨hcur, -⟩ | ⟨hcur, -⟩
  · exact hpoint
  · exact absurd hcur ht
  · exact absurd hcur ht

/-- A step of the library keeps a thread at an entry place of a section. -/
theorem atEntry_step (hl : Lives s) (ht : AtEntry s t) (hm : m = .expire ∨ m = .exec)
    (hstep : step g m s = some s') : AtEntry s' t := by
  rcases ht with hpoint | ⟨rfl, hblocked, v, hstack⟩ | ⟨rfl, hblocked, hstack⟩
  · by_cases hrun : t = s.currentRunningThread ∧ s.Executes m
    · obtain ⟨rfl, hrun⟩ := hrun
      rw [hrun.point] at hpoint
      rcases hm with rfl | rfl
      · exact absurd rfl hrun.1
      · exact acquiring_exec hpoint hl.regular.mask hstep
    · exact Or.inl (hpoint.kept hl hstep fun heq hrun' => hrun ⟨heq, hrun'⟩)
  · rcases hm with rfl | rfl
    · simp [step, hblocked] at hstep
    · simp only [step, exec, hstack, Option.some.injEq] at hstep
      subst hstep
      exact Or.inr (Or.inr ⟨rfl, hblocked, rfl⟩)
  · rcases hm with rfl | rfl
    · simp [step, hblocked] at hstep
    · simp [step, exec, hstack] at hstep

end Steps

variable {G L : Type} {g : Grain} {P : Program G L} {w w' : World G L} {tick : Tick} {t : Tid}
  {entry inner : L → Prop}

/-- The places of a critical section: how the code comes to them and leaves them. -/
structure Program.Section (P : Program G L) (entry inner : L → Prop) : Prop where
  act : ∀ shared place shared' next, P.code shared place = .act shared' next →
    entry next ∨ inner next → entry place ∨ inner place
  call : ∀ shared place op next, P.code shared place = .call op next → ¬ inner next ∧
    (entry next → (∃ l, op = .lockAcquire l) ∨ ∃ c lock, op = .tWait c lock)
  ret : ∀ shared place, P.code shared place = .ret → ¬ entry place ∧ ¬ inner place
  body : ∀ f v, ¬ entry (P.body f v) ∧ ¬ inner (P.body f v)

/-- Where the threads are that are at the places of a section. -/
structure Guarded (entry inner : L → Prop) (w : World G L) : Prop where
  entry : ∀ t, entry (w.threads t) → AtEntry w.sys t
  inner : ∀ t, inner (w.threads t) → w.sys.InSection t

theorem Guarded.act (hg : Guarded entry inner w) (hs : P.Section entry inner) {shared : G}
    {next : L} (hstack : w.sys.stack = [.user])
    (hcode : P.code w.shared (w.threads w.sys.currentRunningThread) = .act shared next)
    (hnext : entry next ∨ inner next) : w.sys.InSection w.sys.currentRunningThread := by
  rcases hs.act _ _ _ _ hcode hnext with hentry | hinner
  · exact (hg.entry _ hentry).user hstack
  · exact hg.inner _ hinner

theorem Guarded.step (hg : Guarded entry inner w) (hs : P.Section entry inner) (hh : Hosted P w)
    (h : w.step g P tick = some w') : Guarded entry inner w' := by
  have hl := hh.calm.lives
  -- a thread other than the running one stays where it is in `lock_acquire` or `t_wait`
  have hother : ∀ {m : Move} {s : State} {t : Tid}, Threads.step g m w.sys = some s →
      t ≠ w.sys.currentRunningThread → entry (w.threads t) → AtEntry s t :=
    fun hstep ht hentry =>
      Or.inl (((hg.entry _ hentry).other ht).kept hl hstep fun heq => absurd heq ht)
  have hinner : ∀ {t : Tid}, t ≠ w.sys.currentRunningThread → ¬ inner (w.threads t) :=
    fun ht hin => ht (hg.inner _ hin).1
  cases World.goes h with
  | expire s hstep =>
    refine ⟨fun t ht => atEntry_step hl (hg.entry t ht) (Or.inl rfl) hstep, fun t ht => ?_⟩
    obtain ⟨-, hblocked, -⟩ := hg.inner t ht
    simp [Threads.step, hblocked] at hstep
  | act shared next hstack hcode =>
    refine ⟨fun t ht => ?_, fun t ht => ?_⟩ <;> by_cases hcur : t = w.sys.currentRunningThread
    · subst hcur
      simp only [Function.update_self] at ht
      exact Or.inr (Or.inr (hg.act hs hstack hcode (Or.inl ht)))
    · simp only [Function.update_of_ne hcur] at ht
      exact hg.entry t ht
    · subst hcur
      simp only [Function.update_self] at ht
      exact hg.act hs hstack hcode (Or.inr ht)
    · simp only [Function.update_of_ne hcur] at ht
      exact hg.inner t ht
  | call op next s hstack hcode hstep =>
    obtain ⟨hnot, hentry⟩ := hs.call _ _ _ _ hcode
    refine ⟨fun t ht => ?_, fun t ht => ?_⟩ <;> by_cases hcur : t = w.sys.currentRunningThread
    · subst hcur
      simp only [Function.update_self] at ht
      simp only [Threads.step, hstack, if_true, Option.some.injEq] at hstep
      subst hstep
      have hpoint : (w.sys.goto [.enter op, .user]).point w.sys.currentRunningThread =
          [.enter op, .user] := point_own (s := w.sys.goto _) rfl rfl rfl
      refine Or.inl ?_
      rw [hpoint]
      rcases hentry ht with ⟨l, rfl⟩ | ⟨c, lock, rfl⟩
      · exact .call l
      · exact .wait c lock
    · simp only [Function.update_of_ne hcur] at ht
      exact hother hstep hcur ht
    · subst hcur
      simp only [Function.update_self] at ht
      exact absurd ht hnot
    · simp only [Function.update_of_ne hcur] at ht
      exact absurd ht (hinner hcur)
  | ret s hstack hcode hstep =>
    obtain ⟨hentry, hin⟩ := hs.ret _ _ hcode
    refine ⟨fun t ht => ?_, fun t ht => ?_⟩ <;> by_cases hcur : t = w.sys.currentRunningThread
    · exact absurd (hcur ▸ ht) hentry
    · exact hother hstep hcur ht
    · exact absurd (hcur ▸ ht) hin
    · exact absurd ht (hinner hcur)
  | exec s hstack hstep =>
    have hkept : ∀ t, entry (w.threads t) → AtEntry s t :=
      fun t ht => atEntry_step hl (hg.entry t ht) (Or.inr rfl) hstep
    have hnone : ∀ t, ¬ inner (w.threads t) := fun t ht => hstack (hg.inner t ht).2.2
    have hlaunch := P.launches w.sys w.threads
    generalize P.launch w.sys w.threads = threads at hlaunch ⊢
    have hbody : ∀ {u : Tid} {f : ThreadFunc} {v : AnyPtr} (t : Tid),
        (entry (Function.update w.threads u (P.body f v) t) → entry (w.threads t)) ∧
          ¬ inner (Function.update w.threads u (P.body f v) t) := by
      intro u f v t
      by_cases ht : t = u
      · rw [ht, Function.update_self]
        exact ⟨fun hentry => absurd hentry (hs.body f v).1, (hs.body f v).2⟩
      · rw [Function.update_of_ne ht]
        exact ⟨id, hnone t⟩
    cases hlaunch with
    | fork | start =>
      exact ⟨fun t ht => hkept t ((hbody t).1 ht), fun t ht => absurd ht (hbody t).2⟩
    | same => exact ⟨hkept, fun t ht => absurd ht (hnone t)⟩

theorem World.Opens.guarded {calls : List MainCall} {shared : G}
    (h : World.Opens P calls shared w) (hs : P.Section entry inner) : Guarded entry inner w := by
  obtain ⟨-, -, -, -, hthreads⟩ := h
  refine ⟨fun t ht => ?_, fun t ht => ?_⟩ <;> rw [hthreads] at ht
  · exact absurd ht (hs.body 0 .null).1
  · exact absurd ht (hs.body 0 .null).2

/-- What the library guarantees to a program with a critical section. -/
structure Secured (P : Program G L) (entry inner : L → Prop) (w : World G L) : Prop where
  hosted : Hosted P w
  guarded : Guarded entry inner w

theorem Secured.step (h : Secured P entry inner w) (hP : P.Plain) (hs : P.Section entry inner)
    (hstep : w.step g P tick = some w') : Secured P entry inner w' :=
  ⟨h.hosted.step hP hstep, h.guarded.step hs h.hosted hstep⟩

theorem World.Opens.secured {calls : List MainCall} {shared : G}
    (h : World.Opens P calls shared w) (hs : P.Section entry inner) : Secured P entry inner w :=
  ⟨h.hosted, h.guarded hs⟩

/-- The invariant rule for programs with a critical section. -/
theorem Secured.of_run {ok : Tick → World G L → Prop} {I : World G L → Prop} {w₀ : World G L}
    {calls : List MainCall} {shared : G} (hP : P.Plain) (hs : P.Section entry inner)
    (h₀ : World.Opens P calls shared w₀) (hinit : I w₀)
    (hstep : ∀ tick w w', Secured P entry inner w → I w → ok tick w →
      w.step g P tick = some w' → I w')
    (hrun : Run (World.step g P) ok w₀ w) : Secured P entry inner w ∧ I w :=
  hrun.invariant (I := fun w => Secured P entry inner w ∧ I w) ⟨h₀.secured hs, hinit⟩
    fun tick w w' hI hok h => ⟨hI.1.step hP hs h, hstep tick w w' hI.1 hI.2 hok h⟩

/-- A thread at an inner place is the running one, and it has been forked. -/
theorem Secured.running (h : Secured P entry inner w) (ht : inner (w.threads t)) :
    t = w.sys.currentRunningThread ∧ w.sys.blocked = true ∧ w.sys.stack = [.user] ∧
      w.sys.Forked t := by
  obtain ⟨rfl, hblocked, hstack⟩ := h.guarded.inner t ht
  exact ⟨rfl, hblocked, hstack, h.hosted.calm.forked_top hstack rfl rfl⟩

theorem Secured.outer (h : Secured P entry inner w) (hswitch : w.sys.Switches) (t : Tid) :
    ¬ inner (w.threads t) := by
  intro hin
  obtain ⟨-, hblocked, hstack, -⟩ := h.running hin
  rcases hswitch with hfalse | hne
  · cases hblocked.symm.trans hfalse
  · exact hne hstack

/-- Between two steps at an inner place the processor is not lost: what is said of the place
of the running thread, and is the same at all other places, is said of the next one. -/
theorem Secured.running_next {own : Prop} (h : Secured P entry inner w)
    (h' : Secured P entry inner w') (hs : P.Section entry inner)
    (hturn : Turn P own w w' w.sys.currentRunningThread) {Q : L → Prop}
    (hQ : ∀ l l', ¬ inner l → ¬ inner l' → Q l → Q l')
    (hnext : Q (w'.threads w.sys.currentRunningThread)) :
    Q (w'.threads w'.sys.currentRunningThread) := by
  by_cases hcur : w'.sys.currentRunningThread = w.sys.currentRunningThread
  · exact hcur ▸ hnext
  · refine hQ _ _ (fun hin => hcur (h'.running hin).1.symm) (fun hin => ?_) hnext
    rcases hturn.threads hcur with hsame | ⟨f, v, hbody⟩
    · rw [hsame] at hin
      exact hcur (h.running hin).1
    · rw [hbody] at hin
      exact (hs.body f v).2 hin

/-- What only a thread inside the section weighs is what the running one weighs. -/
theorem Secured.total_inner {weight : Option Op × L → ℤ} (h : Secured P entry inner w)
    (hw : ∀ x, ¬ inner x.2 → weight x = 0) (hin : inner (w.threads t)) :
    w.total weight = weight (w.pos t) := by
  obtain ⟨hcur, -, -, hforked⟩ := h.running hin
  refine tally_eq_single (mem_tids.mpr hforked) fun u _ hu => hw _ fun hin' => hu ?_
  rw [(h.running hin').1, hcur]

section Tallied

/-! Several weights of the places, and what they and the shared variables have to do with
each other when the running thread is at a place. -/

variable {ι : Type} {weights : ι → Option Op × L → ℤ} {Q : G → (ι → ℤ) → L → Prop}

def World.totals (w : World G L) (weights : ι → Option Op × L → ℤ) (i : ι) : ℤ :=
  w.total (weights i)

/-- A move between places that weigh the same changes no total. -/
theorem totals_same {b b' : ι → ℤ} {x y : Option Op × L}
    (hb : ∀ i, b' i + weights i x = b i + weights i y)
    (hw : ∀ i, weights i y = weights i x) : b' = b := by
  funext i
  have hi := hb i
  rw [hw i] at hi
  exact add_right_cancel hi

/-- The step rule: it is enough that the moves of the running thread keep the relation, and
that a fork changes no total. -/
theorem Secured.tallied_step (h : Secured P entry inner w) (hP : P.Plain)
    (hs : P.Section entry inner) (hstep : w.step g P tick = some w') (hown : EntersOwn tick w)
    (hQ : ∀ s b l l', ¬ inner l → ¬ inner l' → Q s b l → Q s b l')
    (hmoves : ∀ x y δ b', w.pos w.sys.currentRunningThread = x →
      (x = y ∨ w.sys.Forked w.sys.currentRunningThread) →
      Moves P True w.shared w'.shared x y δ →
      (∀ i, b' i + weights i x = w.totals weights i + weights i y) →
      Q w.shared (w.totals weights) x.2 → Q w'.shared b' y.2)
    (hforks : ∀ f v p before place next, P.code before place = .call (.tFork f v p) next →
      ∀ i, weights i (none, next) + weights i (none, P.body f v) =
        weights i (some (.tFork f v p), next))
    (hnow : Q w.shared (w.totals weights) (w.threads w.sys.currentRunningThread)) :
    Q w'.shared (w'.totals weights) (w'.threads w'.sys.currentRunningThread) := by
  have hturn : Turn P True w w' w.sys.currentRunningThread :=
    (World.goes hstep).turn h.hosted hP fun _ => hown
  refine h.running_next (h.step hP hs hstep) hs hturn (hQ _ _) ?_
  rcases hturn.total h.hosted.calm.lives.exits.next with
    ⟨x, y, δ, hplace, hpos, -, hcur, hmove, htotal⟩ |
    ⟨f, v, p, before, place, next, hplace, hcode, hshared, -, hnext, htotal⟩
  · have hy : w'.pos w.sys.currentRunningThread = y := by rw [hpos, Function.update_self]
    rw [show w'.threads w.sys.currentRunningThread = y.2 from congrArg Prod.snd hy]
    rw [show w.threads w.sys.currentRunningThread = x.2 from congrArg Prod.snd hplace] at hnow
    exact hmoves x y δ _ hplace hcur hmove (fun i => htotal (weights i)) hnow
  · have hb : w'.totals weights = w.totals weights := funext fun i => by
      have htotal := htotal (weights i)
      rw [Int.add_assoc, hforks _ _ _ _ _ _ hcode i] at htotal
      exact add_right_cancel htotal
    have hthreads : w'.threads w.sys.currentRunningThread =
        w.threads w.sys.currentRunningThread :=
      (congrArg Prod.snd hnext).trans (congrArg Prod.snd hplace).symm
    rw [hshared, hb, hthreads]
    exact hnow

end Tallied

end UserThreads.Threads
