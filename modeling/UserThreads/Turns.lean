import UserThreads.Clients
import UserThreads.Tallies

/-!
What a step of a world is to the program. The place of a thread goes with the
routine that the thread has called and not begun. A turn changes one place: a
statement moves the running thread on, a call begins and later takes effect, and
a fork gives a new thread its place. A sum over the places of the threads then
changes by what the one place weighs.
-/
namespace UserThreads.Threads

open LinkedCells Queue Runs MultilevelQueue Tallies

section States

variable {g : Grain} {s s' : State} {m : Move} {t : Tid} {op : Op} {f : Frame} {k : List Frame}

theorem State.executes (hm : m ≠ .expire) (hstack : s.stack = f :: k) (hf : f.isTimer = false)
    (hf' : f.isSystem = false) : s.Executes m :=
  ⟨hm, f, k, hstack, hf, hf'⟩

/-- A running thread has been forked. -/
theorem Calm.forked_top (hc : Calm s) (hstack : s.stack = f :: k) (hf : f.isTimer = false)
    (hf' : f.isSystem = false) : s.Forked s.currentRunningThread :=
  hc.forked_current (by rw [hstack]; exact body_own_ne_nil hf hf')

theorem Calm.calling_spare (hc : Calm s) (ht : ¬ s.Forked t) : s.calling t = none := by
  have hnil : s.point t = [] := by
    rcases not_and_or.mp ht with hle | hlt
    · exact (hc.lives.exits.unused t (not_lt.mp hle)).2
    · obtain ⟨hentries, -, hnew⟩ := hc.lives.starts.unmade t (not_le.mp hlt)
      by_contra hne
      rcases hc.lives.starts.entered t hne with hmem | hentered
      · exact hnew (Or.inr hmem)
      · exact hentered hentries
  exact calling_none.mpr (by simp [hnil])

/-- The routine at the top of the stack is the one that the thread has called, unless a
routine has called it. -/
theorem calling_enter (hstack : s.stack = [.enter op, .user]) :
    s.calling s.currentRunningThread = some op := by
  rw [calling_iff, State.point_current (by rw [hstack]; exact body_own_ne_nil rfl rfl), hstack]
  rfl

theorem calling_user (hstack : s.stack = [.user]) : s.calling s.currentRunningThread = none :=
  calling_top hstack rfl rfl (by simp)

/-- What `t_fork` has made when its first step is done. -/
theorem Calm.forked_made {f : ThreadFunc} {v : AnyPtr} {p : ℤ} (hc : Calm s)
    (hstack : s.stack = .enter (.tFork f v p) :: k) (hstep : Threads.step g .exec s = some s') :
    s'.currentRunningThread = s.currentRunningThread ∧ s'.gThreadID = s.gThreadID + 1 ∧
      s'.hist = .inserted (.ready p) (s.gThreadID + 1) ::
        .forked (s.gThreadID + 1) f v p :: s.hist := by
  have hforked := hc.forked_top hstack rfl rfl
  have hprio : s.current.priority ≠ -1 := by
    intro heq
    have hpos := hc.home.priority _ hforked
    rw [show (s.tcb s.currentRunningThread).priority = -1 from heq] at hpos
    exact absurd hpos (by decide)
  obtain ⟨hcur, hid, -, hhist, -⟩ := step_tFork hstack hforked.2 hprio hstep
  exact ⟨hcur, hid, hhist⟩

/-- What is done when a thread has entered its function. -/
theorem step_start (hstack : s.stack = .start :: k) (hstep : step g .exec s = some s') :
    s' = (s.log (.entered s.currentRunningThread s.userFunction s.current.arg)).goto [.user] := by
  simp only [step, exec, hstack, Option.some.injEq] at hstep
  exact hstep.symm

/-- A thread that waits at a semaphore or a condition does not execute. -/
theorem Calm.idle_of_mem {q : QRef} (hc : Calm s) (ht : t ∈ s.contents q) :
    t = s.currentRunningThread → ¬ s.Executes m := by
  intro heq hexec
  obtain ⟨-, f, k, hstack, -, hf⟩ := hexec
  exact hc.unjoined.standing.current (not_vacant hstack hf) q (heq ▸ ht)

end States

variable {G L : Type} {g : Grain} {P : Program G L} {w w' : World G L} {tick : Tick} {t : Tid}

/-- The routine that the thread has called and not begun, and where it goes on after. -/
def World.pos (w : World G L) (t : Tid) : Option Op × L := (w.sys.calling t, w.threads t)

/-- The code has the call that the thread has made. -/
def Program.Called (P : Program G L) (x : Option Op × L) : Prop :=
  ∀ op, x.1 = some op → ∃ shared place, P.code shared place = .call op x.2

/-- The steps of a world by what they are in the library. -/
inductive Goes (g : Grain) (P : Program G L) (w : World G L) : Tick → World G L → Prop
  | expire (s : State) (hstep : step g .expire w.sys = some s) :
      Goes g P w .expire { w with sys := s }
  | act (shared : G) (next : L) (hstack : w.sys.stack = [.user])
      (hcode : P.code w.shared (w.threads w.sys.currentRunningThread) = .act shared next) :
      Goes g P w .run { w with
        shared := shared
        threads := Function.update w.threads w.sys.currentRunningThread next }
  | call (op : Op) (next : L) (s : State) (hstack : w.sys.stack = [.user])
      (hcode : P.code w.shared (w.threads w.sys.currentRunningThread) = .call op next)
      (hstep : step g (.call op) w.sys = some s) :
      Goes g P w .run { w with
        sys := s, threads := Function.update w.threads w.sys.currentRunningThread next }
  | ret (s : State) (hstack : w.sys.stack = [.user])
      (hcode : P.code w.shared (w.threads w.sys.currentRunningThread) = .ret)
      (hstep : step g .finish w.sys = some s) : Goes g P w .run { w with sys := s }
  | exec (s : State) (hstack : w.sys.stack ≠ [.user]) (hstep : step g .exec w.sys = some s) :
      Goes g P w .run { w with sys := s, threads := P.launch w.sys w.threads }

theorem World.goes (h : w.step g P tick = some w') : Goes g P w tick w' := by
  cases tick with
  | expire =>
    simp only [World.step, Option.map_eq_some_iff] at h
    obtain ⟨s, hstep, rfl⟩ := h
    exact .expire s hstep
  | run =>
    unfold World.step at h
    dsimp only at h
    split at h
    · rename_i hstack
      split at h
      · rename_i shared next hcode
        cases h
        exact .act shared next hstack hcode
      · rename_i op next hcode
        obtain ⟨s, hstep, rfl⟩ := Option.map_eq_some_iff.mp h
        exact .call op next s hstack hcode hstep
      · rename_i hcode
        obtain ⟨s, hstep, rfl⟩ := Option.map_eq_some_iff.mp h
        exact .ret s hstack hcode hstep
    · rename_i hstack
      obtain ⟨s, hstep, rfl⟩ := Option.map_eq_some_iff.mp h
      exact .exec s hstack hstep

/-- Where a step of the library leaves the threads. -/
inductive Launches (P : Program G L) (s : State) (threads : Tid → L) : (Tid → L) → Prop
  | fork (f : ThreadFunc) (v : AnyPtr) (p : ℤ) (k : List Frame)
      (hstack : s.stack = .enter (.tFork f v p) :: k) :
      Launches P s threads (Function.update threads (s.gThreadID + 1) (P.body f v))
  | start (k : List Frame) (hstack : s.stack = .start :: k) :
      Launches P s threads (Function.update threads s.currentRunningThread
        (P.body s.userFunction s.current.arg))
  | same (hfork : ∀ f v p k, s.stack ≠ .enter (.tFork f v p) :: k)
      (hstart : ∀ k, s.stack ≠ .start :: k) : Launches P s threads threads

theorem Program.launches (P : Program G L) (s : State) (threads : Tid → L) :
    Launches P s threads (P.launch s threads) := by
  unfold Program.launch
  split
  · rename_i f v p k hstack
    exact .fork f v p k hstack
  · rename_i k hstack
    exact .start k hstack
  · rename_i hfork hstart
    exact .same hfork hstart

theorem World.run_exec (hstack : w.sys.stack ≠ [.user]) (h : w.step g P .run = some w') :
    ∃ s, Threads.step g .exec w.sys = some s ∧
      w' = { w with sys := s, threads := P.launch w.sys w.threads } := by
  simp only [World.step, if_neg hstack, Option.map_eq_some_iff] at h
  obtain ⟨s, hs, rfl⟩ := h
  exact ⟨s, hs, rfl⟩

/-- A step inside the library at which no thread is forked and none enters its function. -/
theorem World.run_inside {f : Frame} {k : List Frame} (hstack : w.sys.stack = f :: k)
    (huser : f ≠ .user) (hstart : f ≠ .start) (hfork : ∀ func v p, f ≠ .enter (.tFork func v p))
    (h : w.step g P .run = some w') :
    ∃ s, Threads.step g .exec w.sys = some s ∧ w' = { w with sys := s } := by
  obtain ⟨s, hs, rfl⟩ := World.run_exec (by simp [hstack, huser]) h
  have hlaunch := P.launches w.sys w.threads
  refine ⟨s, hs, ?_⟩
  generalize P.launch w.sys w.threads = threads at hlaunch ⊢
  cases hlaunch with
  | fork _ _ _ _ hstack' => exact absurd (List.cons.inj (hstack.symm.trans hstack')).1 (hfork _ _ _)
  | start _ hstack' => exact absurd (List.cons.inj (hstack.symm.trans hstack')).1 hstart
  | same => rfl

/-- No step other than that of `t_fork` forks. -/
theorem StartMove.forks_eq {s s' : State} {m : Move} (h : StartMove s s' m)
    (hfork : m = .exec → ∀ f v p k, s.stack ≠ .enter (.tFork f v p) :: k) :
    forks t s'.hist = forks t s.hist := by
  cases h with
  | none _ _ _ hforks => exact hforks t
  | fork f v p k hstack => exact absurd hstack (hfork rfl f v p k)
  | start _ _ _ _ _ _ _ _ hhist => simp [hhist, forks]
  | enter _ _ _ _ _ _ hhist => simp [hhist, forks]

theorem StartMove.gThreadID_eq {s s' : State} {m : Move} (h : StartMove s s' m)
    (hfork : m = .exec → ∀ f v p k, s.stack ≠ .enter (.tFork f v p) :: k) :
    s'.gThreadID = s.gThreadID := by
  cases h with
  | fork f v p k hstack => exact absurd hstack (hfork rfl f v p k)
  | none _ hid | start _ _ _ _ _ hid | enter _ _ _ hid => exact hid

/-- What holds of every world in which the program joins no thread. -/
structure Hosted (P : Program G L) (w : World G L) : Prop where
  calm : Calm w.sys
  born : ∀ t f v, entries t w.sys.hist = [] → forks t w.sys.hist = [(f, v)] →
    w.threads t = P.body f v
  spare : ∀ t, ¬ w.sys.Forked t → w.threads t = P.body 0 .null
  called : ∀ t, P.Called (w.pos t)
  waits : ∀ i, ∀ t ∈ w.sys.contents (.sem i), w.sys.Forked t ∧ w.sys.calling t = none ∧
    ∃ shared place, P.code shared place = .call (.semaphoreP i) (w.threads t)

/-- A step at which no thread is forked and none enters its function. -/
theorem Hosted.born_kept {m : Move} {s : State} (hh : Hosted P w)
    (hstep : step g m w.sys = some s)
    (hfork : m = .exec → ∀ f v p k, w.sys.stack ≠ .enter (.tFork f v p) :: k)
    {f : ThreadFunc} {v : AnyPtr}
    (hentries : entries t s.hist = []) (hforks : forks t s.hist = [(f, v)]) :
    w.threads t = P.body f v := by
  have hmove := (step_trans hstep).startMove
  refine hh.born t f v (by_contra fun hne => hmove.entries_mono hne hentries) ?_
  rwa [← hmove.forks_eq hfork]

theorem forked_kept {m : Move} {s : State} (hstep : step g m w.sys = some s)
    (ht : ¬ s.Forked t) : ¬ w.sys.Forked t :=
  fun hforked => ht ⟨hforked.1, le_trans hforked.2 (step_trans hstep).gThreadID_le⟩

theorem Goes.calm (h : Goes g P w tick w') (hP : P.Plain) (hc : Calm w.sys) : Calm w'.sys := by
  cases h with
  | act => exact hc
  | expire s hstep | ret s _ _ hstep | exec s _ hstep => exact hc.step (by rfl) hstep
  | call op next s _ hcode hstep =>
    refine hc.step ?_ hstep
    have hplain := hP _ _ _ _ hcode
    cases op <;> first | rfl | cases hplain

theorem Goes.born (h : Goes g P w tick w') (hh : Hosted P w) {f : ThreadFunc} {v : AnyPtr}
    (hentries : entries t w'.sys.hist = []) (hforks : forks t w'.sys.hist = [(f, v)]) :
    w'.threads t = P.body f v := by
  cases h with
  | expire s hstep | ret s _ _ hstep => exact hh.born_kept hstep (by simp) hentries hforks
  | act shared next hstack =>
    have hcur : t ≠ w.sys.currentRunningThread := by
      rintro rfl
      exact (hh.calm.lives.user hstack).1 hentries
    exact (Function.update_of_ne hcur ..).trans (hh.born t f v hentries hforks)
  | call op next s hstack _ hstep =>
    have hcur : t ≠ w.sys.currentRunningThread := by
      rintro rfl
      exact (step_trans hstep).startMove.entries_mono (hh.calm.lives.user hstack).1 hentries
    exact (Function.update_of_ne hcur ..).trans (hh.born_kept hstep (by simp) hentries hforks)
  | exec s _ hstep =>
    have hlaunch := P.launches w.sys w.threads
    change P.launch w.sys w.threads t = _
    generalize P.launch w.sys w.threads = threads at hlaunch ⊢
    cases hlaunch with
    | fork f' v' p k hstack =>
      obtain ⟨-, -, hhist⟩ := hh.calm.forked_made hstack hstep
      rw [hhist] at hentries hforks
      by_cases ht : t = w.sys.gThreadID + 1
      · subst ht
        simp only [forks, if_true, List.cons.injEq, Prod.mk.injEq] at hforks
        obtain ⟨⟨rfl, rfl⟩, -⟩ := hforks
        rw [Function.update_self]
      · simp only [forks, if_neg (Ne.symm ht)] at hforks
        rw [Function.update_of_ne ht]
        exact hh.born t f v hentries hforks
    | start k hstack =>
      have hcur : t ≠ w.sys.currentRunningThread := by
        rintro rfl
        simp [step_start hstack hstep, State.log, State.goto, entries] at hentries
      rw [Function.update_of_ne hcur]
      exact hh.born_kept hstep (by simp [hstack]) hentries hforks
    | same hfork => exact hh.born_kept hstep (fun _ => hfork) hentries hforks

theorem Goes.spare (h : Goes g P w tick w') (hh : Hosted P w) (ht : ¬ w'.sys.Forked t) :
    w'.threads t = P.body 0 .null := by
  have huser : w.sys.stack = [.user] → ¬ w.sys.Forked t → t ≠ w.sys.currentRunningThread := by
    rintro hstack hnot rfl
    exact hnot (hh.calm.forked_top hstack rfl rfl)
  cases h with
  | expire s hstep | ret s _ _ hstep => exact hh.spare t (forked_kept hstep ht)
  | act shared next hstack =>
    exact (Function.update_of_ne (huser hstack ht) ..).trans (hh.spare t ht)
  | call op next s hstack _ hstep =>
    have hnot := forked_kept hstep ht
    exact (Function.update_of_ne (huser hstack hnot) ..).trans (hh.spare t hnot)
  | exec s _ hstep =>
    have hnot := forked_kept hstep ht
    have hlaunch := P.launches w.sys w.threads
    change P.launch w.sys w.threads t = _
    generalize P.launch w.sys w.threads = threads at hlaunch ⊢
    cases hlaunch with
    | fork f v p k hstack =>
      obtain ⟨-, hid, -⟩ := hh.calm.forked_made hstack hstep
      have hne : t ≠ w.sys.gThreadID + 1 := by
        rintro rfl
        refine ht ⟨?_, le_of_eq hid.symm⟩
        exact Int.lt_add_one_of_le hh.calm.lives.exits.next
      rw [Function.update_of_ne hne]
      exact hh.spare t hnot
    | start k hstack =>
      have hcur : t ≠ w.sys.currentRunningThread := by
        rintro rfl
        exact hnot (hh.calm.forked_top hstack rfl rfl)
      rw [Function.update_of_ne hcur]
      exact hh.spare t hnot
    | same => exact hh.spare t hnot

/-- How the running thread moves, with what that adds to the permits of each semaphore;
`own` says that it enters the function it was forked with, if it enters one. -/
inductive Moves (P : Program G L) (own : Prop) (shared shared' : G) :
    Option Op × L → Option Op × L → (SemId → ℤ) → Prop
  | stay (x : Option Op × L) (hshared : shared' = shared) :
      Moves P own shared shared' x x fun _ => 0
  | act (place next : L) (hcode : P.code shared place = .act shared' next) :
      Moves P own shared shared' (none, place) (none, next) fun _ => 0
  | call (op : Op) (place next : L) (hcode : P.code shared place = .call op next)
      (hshared : shared' = shared) :
      Moves P own shared shared' (none, place) (some op, next) fun _ => 0
  | routine (op : Op) (before : G) (place next : L) (hcode : P.code before place = .call op next)
      (hop : ∀ f v p, op ≠ .tFork f v p) (hshared : shared' = shared) :
      Moves P own shared shared' (some op, next) (none, next) fun i => op.posts i
  | start (f f' : ThreadFunc) (v : AnyPtr) (hown : own → f' = f) (hshared : shared' = shared) :
      Moves P own shared shared' (none, P.body f v) (none, P.body f' v) fun _ => 0

/-- What a step is to the program: the running thread `c` moves, or has forked a thread. -/
inductive Turn (P : Program G L) (own : Prop) (w w' : World G L) (c : Tid) : Prop
  | moves (x y : Option Op × L) (d : SemId → ℤ) (hplace : w.pos c = x)
      (hpos : w'.pos = Function.update w.pos c y) (hid : w'.sys.gThreadID = w.sys.gThreadID)
      (hpermits : ∀ i, w'.sys.permits i = w.sys.permits i + d i) (hcur : x = y ∨ w.sys.Forked c)
      (hmove : Moves P own w.shared w'.shared x y d) : Turn P own w w' c
  | fork (f : ThreadFunc) (v : AnyPtr) (p : ℤ) (before : G) (place next : L)
      (hplace : w.pos c = (some (.tFork f v p), next))
      (hcode : P.code before place = .call (.tFork f v p) next) (hshared : w'.shared = w.shared)
      (hpos : w'.pos = Function.update (Function.update w.pos c (none, next))
        (w.sys.gThreadID + 1) (none, P.body f v))
      (hcur : w.sys.Forked c) (hid : w'.sys.gThreadID = w.sys.gThreadID + 1)
      (hpermits : ∀ i, w'.sys.permits i = w.sys.permits i) : Turn P own w w' c

/-- A routine called by another routine is none of a semaphore. -/
theorem Hosted.enter_cases {op : Op} {k : List Frame} (hh : Hosted P w)
    (hstack : w.sys.stack = .enter op :: k) :
    k = [.user] ∧ w.sys.calling w.sys.currentRunningThread = some op ∨
      k ≠ [.user] ∧ (op = .tYield ∨ ∃ l, op = .lockRelease l) := by
  have hs := hh.calm.lives.regular.shaped.stack
  rw [hstack] at hs
  rcases hs.below_inner rfl with rfl | ⟨tid, hin, rfl⟩ | ⟨c, hin, rfl⟩
  · exact Or.inl ⟨rfl, calling_enter hstack⟩
  · refine Or.inr ⟨by simp, Or.inl ?_⟩
    cases op <;> first | rfl | cases hin
  · refine Or.inr ⟨by simp, Or.inr ?_⟩
    cases op <;> first | exact ⟨_, rfl⟩ | cases hin

theorem Hosted.plain_enter {op : Op} {k : List Frame} (hh : Hosted P w) (hP : P.Plain)
    (hstack : w.sys.stack = .enter op :: k) : op.plain = true := by
  rcases hh.enter_cases hstack with ⟨-, hcalling⟩ | ⟨-, rfl | ⟨l, rfl⟩⟩
  · obtain ⟨shared, place, hcode⟩ := hh.called w.sys.currentRunningThread _ hcalling
    exact hP _ _ _ _ hcode
  · rfl
  · rfl

theorem Hosted.permits_step {m : Move} {s : State} (hh : Hosted P w) (hP : P.Plain)
    (hstep : step g m w.sys = some s) (i : SemId) :
    s.permits i = w.sys.permits i + w.sys.posts i m := by
  exact (step_trans hstep).permits i fun op k hstack => hh.plain_enter hP hstack

/-- A step of the library that begins no routine of the program. -/
theorem Hosted.quiet {m : Move} {s : State} (hh : Hosted P w) (hP : P.Plain)
    (hstep : step g m w.sys = some s) (hcall : ∀ op, m ≠ .call op)
    (hexec : m = .exec → ∀ op, w.sys.stack ≠ [.enter op, .user]) :
    (∀ t, s.calling t = w.sys.calling t) ∧ ∀ i, s.permits i = w.sys.permits i := by
  have h := step_trans hstep
  refine ⟨fun t => ?_, fun i => ?_⟩
  · by_cases hrun : t = w.sys.currentRunningThread ∧ w.sys.Executes m
    · obtain ⟨rfl, hrun⟩ := hrun
      cases m with
      | expire => exact absurd rfl hrun.1
      | call op => exact absurd rfl (hcall op)
      | exec =>
        rw [h.calling_exec hh.calm.lives.regular.shaped.stack hrun, eq_comm, calling_none,
          hrun.point]
        exact hexec rfl
      | finish =>
        simp only [step] at hstep
        split at hstep
        · rename_i hstack
          cases hstep
          rw [calling_user hstack]
          exact calling_top rfl rfl rfl (by simp)
        · cases hstep
    · exact h.calling_kept hh.calm.lives fun heq hrun' => hrun ⟨heq, hrun'⟩
  · rw [hh.permits_step hP hstep, eq_comm]
    suffices w.sys.posts i m = 0 by rw [this, Int.add_zero]
    cases m with
    | exec =>
      cases htop : w.sys.stack with
      | nil => simp [State.posts, htop]
      | cons f k =>
        refine posts_zero htop fun op hf => ?_
        subst hf
        rcases hh.enter_cases htop with ⟨rfl, -⟩ | ⟨-, rfl | ⟨l, rfl⟩⟩
        · exact absurd htop (hexec rfl op)
        · rfl
        · rfl
    | _ => rfl

/-- A thread other than the running one keeps its place. -/
theorem Hosted.others {m : Move} {s : State} (hh : Hosted P w) (hstep : step g m w.sys = some s)
    (ht : t ≠ w.sys.currentRunningThread) : s.calling t = w.sys.calling t :=
  (step_trans hstep).calling_kept hh.calm.lives fun heq => absurd heq ht

/-- One place has changed. -/
theorem pos_moved {c : Tid} {x : Option Op × L} (hcur : w'.pos c = x)
    (hcalling : ∀ t, t ≠ c → w'.sys.calling t = w.sys.calling t)
    (hthreads : ∀ t, t ≠ c → w'.threads t = w.threads t) :
    w'.pos = Function.update w.pos c x := by
  funext t
  by_cases ht : t = c
  · rw [ht, Function.update_self]
    exact hcur
  · rw [Function.update_of_ne ht]
    exact Prod.ext (hcalling t ht) (hthreads t ht)

/-- A thread about to enter its function is at the beginning of the body it was forked with. -/
theorem Hosted.newborn {k : List Frame} (hh : Hosted P w) (hstack : w.sys.stack = .start :: k) :
    k = [] ∧ w.pos w.sys.currentRunningThread =
      (none, P.body w.sys.current.func w.sys.current.arg) := by
  have hs := hh.calm.lives.regular.shaped.stack
  have hk : k = [] := by
    rw [hstack] at hs
    cases hs <;> first | rfl | contradiction
  subst hk
  have hpoint : w.sys.point w.sys.currentRunningThread = [.start] := by
    rw [State.point_current (by rw [hstack]; exact body_own_ne_nil rfl rfl), hstack]
    rfl
  have hmem : .start ∈ w.sys.point w.sys.currentRunningThread :=
    hpoint ▸ List.mem_singleton_self _
  obtain ⟨hentries, hforks⟩ := hh.calm.lives.starts.newborn _ (Or.inr hmem)
  have hcalling : w.sys.calling w.sys.currentRunningThread = none := by
    rw [calling_none, hpoint]
    simp
  exact ⟨rfl, Prod.ext hcalling (hh.born _ _ _ hentries hforks)⟩

section Turns

variable {own : Prop} {m : Move} {s : State} {f : Frame} {k : List Frame}

/-- No place has changed. -/
theorem Turn.stay (hcalling : ∀ t, s.calling t = w.sys.calling t)
    (hpermits : ∀ i, s.permits i = w.sys.permits i) (hid : s.gThreadID = w.sys.gThreadID) :
    Turn P own w { w with sys := s } w.sys.currentRunningThread := by
  refine .moves _ _ _ rfl ?_ hid (fun i => ?_) (Or.inl rfl) (.stay _ rfl)
  · rw [Function.update_eq_self]
    exact funext fun t => Prod.ext (hcalling t) rfl
  · rw [hpermits, Int.add_zero]

theorem gThreadID_kept (hstep : step g m w.sys = some s)
    (hfork : m = .exec → ∀ f v p k, w.sys.stack ≠ .enter (.tFork f v p) :: k) :
    s.gThreadID = w.sys.gThreadID :=
  (step_trans hstep).startMove.gThreadID_eq hfork

/-- After a step of its own the running thread has called no routine that it has not begun. -/
theorem Hosted.calling_done (hh : Hosted P w) (hstep : step g .exec w.sys = some s)
    (hstack : w.sys.stack = f :: k) (hf : f.isTimer = false) (hf' : f.isSystem = false) :
    s.calling w.sys.currentRunningThread = none :=
  (step_trans hstep).calling_exec hh.calm.lives.regular.shaped.stack
    (State.executes (by simp) hstack hf hf')

theorem Hosted.turn_fork {f : ThreadFunc} {v : AnyPtr} {p : ℤ} (hh : Hosted P w) (hP : P.Plain)
    (hstep : step g .exec w.sys = some s) (hstack : w.sys.stack = .enter (.tFork f v p) :: k) :
    Turn P own w { w with
      sys := s, threads := Function.update w.threads (w.sys.gThreadID + 1) (P.body f v) }
      w.sys.currentRunningThread := by
  obtain ⟨rfl, hcalling⟩ | ⟨-, hop | ⟨l, hop⟩⟩ := hh.enter_cases hstack
  · obtain ⟨shared, place, hcode⟩ := hh.called w.sys.currentRunningThread _ hcalling
    obtain ⟨-, hnext, -⟩ := hh.calm.forked_made hstack hstep
    have hforked := hh.calm.forked_top hstack rfl rfl
    have hspare : ¬ w.sys.Forked (w.sys.gThreadID + 1) :=
      fun hforked => absurd hforked.2 (not_le_of_gt (lt_next _))
    have hne : w.sys.currentRunningThread ≠ w.sys.gThreadID + 1 :=
      ne_of_lt (lt_of_le_of_lt hforked.2 (lt_next _))
    refine .fork f v p shared place (w.threads w.sys.currentRunningThread)
      (Prod.ext hcalling rfl) hcode rfl ?_ hforked hnext fun i => ?_
    · have hrun : World.pos ⟨s, w.shared, w.threads⟩ =
          Function.update w.pos w.sys.currentRunningThread
            (none, w.threads w.sys.currentRunningThread) :=
        pos_moved (Prod.ext (hh.calling_done hstep hstack rfl rfl) rfl)
          (fun t ht => hh.others hstep ht) fun _ _ => rfl
      rw [← hrun]
      refine pos_moved (Prod.ext ?_ (Function.update_self ..)) (fun _ _ => rfl)
        fun t ht => Function.update_of_ne ht ..
      exact (hh.others hstep hne.symm).trans (hh.calm.calling_spare hspare)
    · rw [hh.permits_step hP hstep, posts_eq hstack]
      exact Int.add_zero _
  · cases hop
  · cases hop

theorem Hosted.turn_start (hh : Hosted P w) (hP : P.Plain)
    (hstep : step g .exec w.sys = some s) (hstack : w.sys.stack = .start :: k)
    (hown : own → EntersOwn .run w) :
    Turn P own w { w with
      sys := s
      threads := Function.update w.threads w.sys.currentRunningThread
        (P.body w.sys.userFunction w.sys.current.arg) } w.sys.currentRunningThread := by
  obtain ⟨rfl, hplace⟩ := hh.newborn hstack
  refine .moves _ _ _ hplace ?_ (gThreadID_kept hstep (by simp [hstack])) (fun i => ?_)
    (Or.inr (hh.calm.forked_top hstack rfl rfl))
    (.start _ w.sys.userFunction _ (fun h => hown h rfl hstack) rfl)
  · exact pos_moved (Prod.ext (hh.calling_done hstep hstack rfl rfl) (Function.update_self ..))
      (fun t ht => hh.others hstep ht) fun t ht => Function.update_of_ne ht ..
  · rw [hh.permits_step hP hstep, posts_zero hstack (by simp)]

/-- A step of the library that forks no thread and lets none enter its function is the first
step of a routine that the thread has called, or nothing to the program. -/
theorem Hosted.turn_same (hh : Hosted P w) (hP : P.Plain)
    (hstep : step g .exec w.sys = some s)
    (hfork : ∀ f v p k, w.sys.stack ≠ .enter (.tFork f v p) :: k) :
    Turn P own w { w with sys := s } w.sys.currentRunningThread := by
  by_cases hcall : ∃ op, w.sys.stack = [.enter op, .user]
  · obtain ⟨op, hstack⟩ := hcall
    have hplace : w.pos w.sys.currentRunningThread = (some op, _) :=
      Prod.ext (calling_enter hstack) rfl
    obtain ⟨shared, place, hcode⟩ := hh.called w.sys.currentRunningThread _ (calling_enter hstack)
    have hop : ∀ f v p, op ≠ .tFork f v p := by
      rintro f v p rfl
      exact hfork f v p _ hstack
    refine .moves _ _ _ hplace ?_ (gThreadID_kept hstep fun _ => hfork) (fun i => ?_)
      (Or.inr (hh.calm.forked_top hstack rfl rfl)) (.routine op shared place _ hcode hop rfl)
    · exact pos_moved (Prod.ext (hh.calling_done hstep hstack rfl rfl) rfl)
        (fun t ht => hh.others hstep ht) fun _ _ => rfl
    · rw [hh.permits_step hP hstep, posts_eq hstack]
  · obtain ⟨hcalling, hpermits⟩ := hh.quiet hP hstep (by simp)
      fun _ op hstack => hcall ⟨op, hstack⟩
    exact .stay hcalling hpermits (gThreadID_kept hstep fun _ => hfork)

theorem Goes.turn (h : Goes g P w tick w') (hh : Hosted P w) (hP : P.Plain)
    (hown : own → EntersOwn tick w) : Turn P own w w' w.sys.currentRunningThread := by
  have huser : w.sys.stack = [.user] → w.pos w.sys.currentRunningThread =
      (none, w.threads w.sys.currentRunningThread) :=
    fun hstack => Prod.ext (calling_user hstack) rfl
  cases h with
  | expire s hstep | ret s _ _ hstep =>
    obtain ⟨hcalling, hpermits⟩ := hh.quiet hP hstep (by simp) (by simp)
    exact .stay hcalling hpermits (gThreadID_kept hstep (by simp))
  | act shared next hstack hcode =>
    refine .moves _ _ _ (huser hstack) ?_ rfl (fun i => (Int.add_zero _).symm)
      (Or.inr (hh.calm.forked_top hstack rfl rfl)) (.act _ _ hcode)
    exact pos_moved (Prod.ext (calling_user hstack) (Function.update_self ..)) (fun _ _ => rfl)
      fun t ht => Function.update_of_ne ht ..
  | call op next s hstack hcode hstep =>
    refine .moves _ _ _ (huser hstack) ?_ (gThreadID_kept hstep (by simp))
      (fun i => hh.permits_step hP hstep i) (Or.inr (hh.calm.forked_top hstack rfl rfl))
      (.call op _ _ hcode rfl)
    refine pos_moved (Prod.ext ?_ (Function.update_self ..)) (fun t ht => hh.others hstep ht)
      fun t ht => Function.update_of_ne ht ..
    simp only [step, hstack, if_true, Option.some.injEq] at hstep
    subst hstep
    exact calling_enter rfl
  | exec s hstack hstep =>
    have hlaunch := P.launches w.sys w.threads
    generalize P.launch w.sys w.threads = threads at hlaunch ⊢
    cases hlaunch with
    | fork f v p k htop => exact hh.turn_fork hP hstep htop
    | start k htop => exact hh.turn_start hP hstep htop hown
    | same hfork => exact hh.turn_same hP hstep hfork

end Turns

/-- What holds of the place of every thread, and of the place that changes. -/
theorem forall_update {Q : Option Op × L → Prop} {pos : Tid → Option Op × L} {c : Tid}
    {y : Option Op × L} (hpos : ∀ t, Q (pos t)) (hy : Q y) :
    ∀ t, Q (Function.update pos c y t) := by
  intro t
  by_cases ht : t = c
  · rw [ht, Function.update_self]
    exact hy
  · rw [Function.update_of_ne ht]
    exact hpos t

/-- The place of a thread that does not run does not change, or it is new. -/
theorem Turn.threads {own : Prop} {c : Tid} (h : Turn P own w w' c) (ht : t ≠ c) :
    w'.threads t = w.threads t ∨ ∃ f v, w'.threads t = P.body f v := by
  change (w'.pos t).2 = (w.pos t).2 ∨ ∃ f v, (w'.pos t).2 = P.body f v
  cases h with
  | moves x y d hplace hpos =>
    rw [hpos, Function.update_of_ne ht]
    exact Or.inl rfl
  | fork f v p before place next hplace hcode hshared hpos =>
    rw [hpos]
    by_cases hnew : t = w.sys.gThreadID + 1
    · rw [hnew, Function.update_self]
      exact Or.inr ⟨f, v, rfl⟩
    · rw [Function.update_of_ne hnew, Function.update_of_ne ht]
      exact Or.inl rfl

theorem called_none (l : L) : P.Called (none, l) := fun _ h => by cases h

theorem Turn.called {own : Prop} {c : Tid} (h : Turn P own w w' c) (hh : Hosted P w) (t : Tid) :
    P.Called (w'.pos t) := by
  cases h with
  | moves x y d hplace hpos _ _ _ hmove =>
    rw [hpos]
    refine forall_update hh.called ?_ t
    cases hmove with
    | stay => exact hplace ▸ hh.called c
    | act | routine | start => exact called_none _
    | call op place next hcode =>
      intro op' hop
      cases hop
      exact ⟨_, _, hcode⟩
  | fork f v p before place next hplace hcode hshared hpos =>
    rw [hpos]
    exact forall_update (forall_update hh.called (called_none _)) (called_none _) t

/-- Who waits at a semaphore after a step waited there before, or has called
`Semaphore_P`. -/
theorem Calm.sem_mem {s s' : State} {m : Move} {i : SemId} (hc : Calm s)
    (hstep : Threads.step g m s = some s') (ht : t ∈ s'.contents (.sem i)) :
    t ∈ s.contents (.sem i) ∨ m = .exec ∧ t = s.currentRunningThread ∧
      ∃ k, s.stack = .enter (.semaphoreP i) :: k := by
  have h := step_trans hstep
  cases hc.unjoined.shift h with
  | keep _ hcontents => exact Or.inl (hcontents ▸ ht)
  | suspend q _ _ _ _ hcontents _ hhist =>
    rw [hcontents, mem_append_iff] at ht
    rcases ht with hold | ⟨rfl, hcur⟩
    · exact Or.inl hold
    · obtain ⟨hm, hstack⟩ := h.blocks hhist
      exact Or.inr ⟨hm, hcur, hstack⟩
  | fork p _ _ _ hcontents =>
    rw [hcontents, mem_append_iff] at ht
    exact Or.inl (ht.resolve_right fun h => by cases h.1)
  | wake q p u rest _ _ _ _ hhead hcontents =>
    rw [hcontents, mem_append_iff] at ht
    have hrest := ht.resolve_right fun h => by cases h.1
    by_cases hq : q = .sem i
    · subst hq
      rw [Levels.set_self] at hrest
      exact Or.inl (hhead ▸ List.mem_cons_of_mem _ hrest)
    · rw [Levels.set_of_ne (Ne.symm hq)] at hrest
      exact Or.inl hrest
  | dispatch y u rest _ _ _ _ hcontents =>
    rw [hcontents, Levels.set_of_ne (by simp)] at ht
    exact Or.inl ht

/-- A thread in a queue keeps its place. -/
theorem Goes.threads_kept (h : Goes g P w tick w') (hh : Hosted P w) {q : QRef}
    (ht : t ∈ w.sys.contents q) : w'.threads t = w.threads t := by
  have hcur : ∀ {f : Frame} {k : List Frame}, w.sys.stack = f :: k → f.isSystem = false →
      t ≠ w.sys.currentRunningThread := by
    rintro f k hstack hf rfl
    exact hh.calm.unjoined.standing.current (not_vacant hstack hf) q ht
  cases h with
  | expire | ret => rfl
  | act shared next hstack | call op next s hstack =>
    exact Function.update_of_ne (hcur hstack rfl) ..
  | exec s _ hstep =>
    have hlaunch := P.launches w.sys w.threads
    generalize P.launch w.sys w.threads = threads at hlaunch ⊢
    cases hlaunch with
    | fork f v p k hstack =>
      refine Function.update_of_ne ?_ ..
      rintro rfl
      exact hh.calm.unjoined.tids.absent_next q ht
    | start k hstack => exact Function.update_of_ne (hcur hstack rfl) ..
    | same => rfl

/-- How the library is stepped: not at all, or by some move. -/
theorem Goes.sys (h : Goes g P w tick w') :
    w'.sys = w.sys ∨ ∃ m, step g m w.sys = some w'.sys ∧
      (m = .exec → w'.threads = P.launch w.sys w.threads) := by
  cases h with
  | act => exact Or.inl rfl
  | expire s hstep | ret s _ _ hstep => exact Or.inr ⟨_, hstep, by simp⟩
  | call op next s _ _ hstep => exact Or.inr ⟨_, hstep, by simp⟩
  | exec s _ hstep => exact Or.inr ⟨_, hstep, fun _ => rfl⟩

theorem Goes.waits (h : Goes g P w tick w') (hh : Hosted P w) {i : SemId}
    (ht : t ∈ w'.sys.contents (.sem i)) : w'.sys.Forked t ∧ w'.sys.calling t = none ∧
      ∃ shared place, P.code shared place = .call (.semaphoreP i) (w'.threads t) := by
  rcases h.sys with hsys | ⟨m, hstep, hthreads⟩
  · rw [hsys] at ht ⊢
    rw [h.threads_kept hh ht]
    exact hh.waits i t ht
  · have hforked : w.sys.Forked t → w'.sys.Forked t :=
      fun hf => ⟨hf.1, le_trans hf.2 (step_trans hstep).gThreadID_le⟩
    rcases hh.calm.sem_mem hstep ht with hold | ⟨rfl, rfl, k, hstack⟩
    · rw [h.threads_kept hh hold,
        (step_trans hstep).calling_kept hh.calm.lives (hh.calm.idle_of_mem hold)]
      obtain ⟨hf, hcalling⟩ := hh.waits i t hold
      exact ⟨hforked hf, hcalling⟩
    · obtain ⟨rfl, hcalling⟩ | ⟨-, hop | ⟨l, hop⟩⟩ := hh.enter_cases hstack
      · refine ⟨hforked (hh.calm.forked_top hstack rfl rfl),
          (step_trans hstep).calling_exec hh.calm.lives.regular.shaped.stack
          (State.executes (by simp) hstack rfl rfl), ?_⟩
        have hsame : P.launch w.sys w.threads = w.threads := by simp [Program.launch, hstack]
        rw [hthreads rfl, hsame]
        exact hh.called _ _ hcalling
      · cases hop
      · cases hop

theorem Hosted.step (hh : Hosted P w) (hP : P.Plain) (h : w.step g P tick = some w') :
    Hosted P w' where
  calm := h |> World.goes |>.calm hP hh.calm
  born _ _ _ := (World.goes h).born hh
  spare _ := (World.goes h).spare hh
  called t := by
    have hturn : Turn P False w w' w.sys.currentRunningThread :=
      (World.goes h).turn hh hP False.elim
    exact hturn.called hh t
  waits _ _ := (World.goes h).waits hh

theorem World.Opens.initial {calls : List MainCall} {shared : G}
    (h : World.Opens P calls shared w) : Initial w.sys := by
  obtain ⟨cap, p, hsys, -⟩ := h
  exact ⟨cap, calls, 0, .null, p, hsys⟩

theorem World.Opens.hosted {calls : List MainCall} {shared : G}
    (h : World.Opens P calls shared w) : Hosted P w := by
  have h₀ := h.initial
  have hcalm : Calm w.sys := calm_of_run (g := .statement) h₀ (.refl _)
  have hcalling : ∀ t, w.sys.calling t = none := fun t => calling_none.mpr (by simp [h₀.point t])
  obtain ⟨cap, p, hsys, -, hthreads⟩ := h
  have hhist : w.sys.hist = [.inserted (.ready p) 1, .forked 1 0 .null p] := by
    obtain ⟨a, hcalls, hstart⟩ := Option.bind_eq_some_iff.mp hsys
    have hprepared : Prepared a := ⟨cap, calls, hcalls⟩
    obtain ⟨store, -, -, hspec⟩ := tStart_spec hprepared.created hstart
    rw [hspec]
  refine ⟨hcalm, fun t f v _ hforks => ?_, fun t _ => by rw [hthreads], fun t op hop => ?_,
    fun i t ht => ?_⟩
  · rw [hthreads]
    rw [hhist] at hforks
    simp only [forks] at hforks
    split_ifs at hforks
    cases hforks
    rfl
  · cases (hcalling t).symm.trans hop
  · obtain ⟨f, v, q, hb⟩ := h₀.begun
    rw [hb.contents hcalm.unjoined.queues, mem_append_iff] at ht
    rcases ht with ht | ⟨ht, -⟩
    · exact absurd ht List.not_mem_nil
    · cases ht

section Computed

/-! A run of a program is found by computing it. -/

def World.boot (P : Program G L) (calls : List MainCall) (shared : G) (p : ℤ) :
    Option (World G L) :=
  (booted calls p).map fun s => ⟨s, shared, fun _ => P.body 0 .null⟩

theorem exists_world (g : Grain) (ok : Tick → World G L → Prop) [∀ tick w, Decidable (ok tick w)]
    (P : Program G L) (calls : List MainCall) (shared : G) (p : ℤ) (ticks : List Tick)
    (good : World G L → Bool)
    (h : ((World.boot P calls shared p).bind (play (World.step g P) ok ticks)).any good = true) :
    ∃ w₀ w, World.Opens P calls shared w₀ ∧ Run (World.step g P) ok w₀ w ∧ good w = true := by
  obtain ⟨w, hw, hgood⟩ := (Option.any_eq_true ..).mp h
  obtain ⟨w₀, h₀, hplay⟩ := Option.bind_eq_some_iff.mp hw
  obtain ⟨l, hpath, hl⟩ := path_of_play hplay
  obtain ⟨s, hs, rfl⟩ := Option.map_eq_some_iff.mp h₀
  exact ⟨⟨s, shared, fun _ => P.body 0 .null⟩, w, ⟨{}, p, hs, rfl, rfl⟩, hpath.run hl, hgood⟩

/-- The same with the priority of the first thread. -/
theorem exists_opened (g : Grain) (ok : Tick → World G L → Prop)
    [∀ tick w, Decidable (ok tick w)] (P : Program G L) (calls : List MainCall) (shared : G)
    (p : ℤ) (ticks : List Tick) (good : World G L → Bool)
    (h : ((World.boot P calls shared p).bind (play (World.step g P) ok ticks)).any good = true) :
    ∃ w₀ w, (World.Opens P calls shared w₀ ∧ (w₀.sys.tcb 1).priority = p) ∧
      Run (World.step g P) ok w₀ w ∧ good w = true := by
  obtain ⟨w, hw, hgood⟩ := (Option.any_eq_true ..).mp h
  obtain ⟨w₀, h₀, hplay⟩ := Option.bind_eq_some_iff.mp hw
  obtain ⟨l, hpath, hl⟩ := path_of_play hplay
  obtain ⟨s, hs, rfl⟩ := Option.map_eq_some_iff.mp h₀
  obtain ⟨a, hcalls, hstart⟩ := Option.bind_eq_some_iff.mp hs
  have hprepared : Prepared a := ⟨{}, calls, hcalls⟩
  obtain ⟨store, -, -, hspec⟩ := tStart_spec hprepared.created hstart
  exact ⟨⟨s, shared, fun _ => P.body 0 .null⟩, w, ⟨⟨{}, p, hs, rfl, rfl⟩, by simp [hspec]⟩,
    hpath.run hl, hgood⟩

end Computed

/-- The tids up to the last one given. -/
def tids (last : ℤ) : Finset ℤ := (Finset.range last.toNat).image fun k : ℕ => (k : ℤ) + 1

/-- What the places of all threads weigh. -/
def World.total (w : World G L) (weight : Option Op × L → ℤ) : ℤ :=
  tally weight (tids w.sys.gThreadID) w.pos

theorem mem_tids_iff {n : ℤ} {t : ℤ} : t ∈ tids n ↔ 1 ≤ t ∧ t ≤ n := by
  unfold tids
  rw [Finset.mem_image]
  constructor
  · rintro ⟨k, hk, rfl⟩
    have hlt := Finset.mem_range.mp hk
    omega
  · rintro ⟨hpos, hle⟩
    refine ⟨(t - 1).toNat, Finset.mem_range.mpr ?_, ?_⟩ <;> omega

theorem mem_tids {s : State} : t ∈ tids s.gThreadID ↔ s.Forked t := mem_tids_iff

theorem World.total_zero {weight : Option Op × L → ℤ}
    (h : ∀ t, w.sys.Forked t → weight (w.pos t) = 0) : w.total weight = 0 :=
  tally_eq_zero fun t ht => h t (mem_tids.mp ht)

theorem World.total_le {weight weight' : Option Op × L → ℤ} (h : ∀ x, weight x ≤ weight' x) :
    w.total weight ≤ w.total weight' :=
  tally_le_tally h

/-- Before the first step all threads are at the beginning. -/
theorem World.Opens.total_zero {calls : List MainCall} {shared : G}
    {weight : Option Op × L → ℤ} (h : World.Opens P calls shared w)
    (hw : ∀ op, weight (op, P.body 0 .null) = 0) : w.total weight = 0 := by
  obtain ⟨-, -, -, -, hthreads⟩ := h
  refine World.total_zero fun t _ => ?_
  rw [World.pos, hthreads]
  exact hw _

theorem insert_next {n : ℤ} (hn : 0 ≤ n) :
    insert (n + 1) (tids n) = tids (n + 1) ∧ n + 1 ∉ tids n := by
  refine ⟨Finset.ext fun t => ?_, ?_⟩
  · rw [Finset.mem_insert, mem_tids_iff, mem_tids_iff]
    omega
  · rw [mem_tids_iff]
    omega

section Conserves

/-! A value of the shared variables and the permits that keeps step with the weight of
the threads: it is enough that it does in every move of one thread and in every fork. -/

variable {own : Prop} {c : Tid} {weight : Option Op × L → ℤ}

theorem Turn.total (h : Turn P own w w' c) (hn : 0 ≤ w.sys.gThreadID) :
    (∃ x y d, w.pos c = x ∧ w'.pos = Function.update w.pos c y ∧
      (∀ i, w'.sys.permits i = w.sys.permits i + d i) ∧ (x = y ∨ w.sys.Forked c) ∧
      Moves P own w.shared w'.shared x y d ∧
      ∀ weight, w'.total weight + weight x = w.total weight + weight y) ∨
    ∃ f v p before place next, w.pos c = (some (.tFork f v p), next) ∧
      P.code before place = .call (.tFork f v p) next ∧ w'.shared = w.shared ∧
      (∀ i, w'.sys.permits i = w.sys.permits i) ∧ w'.pos c = (none, next) ∧
      ∀ weight, w'.total weight + weight (some (.tFork f v p), next) =
        w.total weight + weight (none, next) + weight (none, P.body f v) := by
  cases h with
  | moves x y d hplace hpos hid hpermits hcur hmove =>
    refine Or.inl ⟨x, y, d, hplace, hpos, hpermits, hcur, hmove, fun weight => ?_⟩
    rw [World.total, World.total, hpos, hid, ← hplace]
    rcases hcur with rfl | hforked
    · rw [← hplace, Function.update_eq_self]
    · exact tally_update (mem_tids.mpr hforked)
  | fork f v p before place next hplace hcode hshared hpos hcur hid hpermits =>
    obtain ⟨hnext, hnot⟩ := insert_next hn
    refine Or.inr ⟨f, v, p, before, place, next, hplace, hcode, hshared, hpermits, ?_,
      fun weight => ?_⟩
    · rw [hpos, Function.update_of_ne, Function.update_self]
      rintro rfl
      exact hnot (mem_tids.mpr hcur)
    · have hone : tally weight (tids w.sys.gThreadID) _ + weight (w.pos c) = _ :=
        tally_update (y := (none, next)) (mem_tids.mpr hcur)
      rw [World.total, World.total, hpos, hid, ← hplace, ← hnext, tally_insert hnot]
      omega

theorem Turn.conserves (h : Turn P own w w' c) (value : G → (SemId → ℤ) → ℤ)
    (hn : 0 ≤ w.sys.gThreadID)
    (hmoves : ∀ s s' x y d p, Moves P own s s' x y d →
      value s' (fun i => p i + d i) + weight x = value s p + weight y)
    (hforks : ∀ f v p before place next, P.code before place = .call (.tFork f v p) next →
      weight (none, next) + weight (none, P.body f v) = weight (some (.tFork f v p), next)) :
    value w'.shared w'.sys.permits - w'.total weight =
      value w.shared w.sys.permits - w.total weight := by
  rcases h.total hn with ⟨x, y, d, -, -, hpermits, -, hmove, htotal⟩ |
    ⟨f, v, p, before, place, next, -, hcode, hshared, hpermits, -, htotal⟩
  · have hvalue := hmoves _ _ _ _ _ w.sys.permits hmove
    have hweight := htotal weight
    rw [show w'.sys.permits = fun i => w.sys.permits i + d i from funext hpermits]
    omega
  · have hweight := hforks _ _ _ _ _ _ hcode
    have hall := htotal weight
    rw [show w'.sys.permits = w.sys.permits from funext hpermits, hshared]
    omega

end Conserves

section Permits

/-! The permits of a semaphore that was created with a count that is not negative, and
the weight of the threads: the waiters weigh one each, so the sum is not negative. -/

variable {i : SemId} {weight : Option Op × L → ℤ}

/-- No place weighs more than all, if the place of no thread weighs nothing. -/
theorem Hosted.weight_le (hh : Hosted P w) (hw : ∀ x, 0 ≤ weight x)
    (hspare : weight (none, P.body 0 .null) = 0) (t : Tid) :
    weight (w.pos t) ≤ w.total weight := by
  by_cases ht : w.sys.Forked t
  · exact weight_le_tally hw (mem_tids.mpr ht)
  · rw [World.pos, hh.calm.calling_spare ht, hh.spare t ht, hspare]
    exact tally_nonneg hw

theorem Hosted.value_nonneg (hh : Hosted P w) (hP : P.Plain) (h : w.step g P tick = some w')
    (hv : ∀ v, w.sys.semaphores i = some v → 0 ≤ v) :
    ∀ v, w'.sys.semaphores i = some v → 0 ≤ v := by
  intro v' hv'
  rcases (World.goes h).sys with hsys | ⟨m, hstep, -⟩
  · exact hv v' (hsys ▸ hv')
  · cases (step_trans hstep).semMove i with
    | keep _ _ _ _ _ hvalue => exact hv v' (hvalue ▸ hv')
    | pass v _ _ _ _ _ hpos hvalue =>
      cases hvalue.symm.trans hv'
      omega
    | block t v _ _ _ _ hsem _ hvalue | hand p t v _ _ _ _ hsem hvalue =>
      exact hv v' (hsem.trans (hvalue.symm.trans hv'))
    | post v _ _ _ _ hsem hvalue =>
      have hold := hv v hsem
      cases hvalue.symm.trans hv'
      omega
    | create c _ _ hnew _ _ hvalue =>
      obtain ⟨-, k, hstack⟩ := calls_iff.mp (creates_iff.mp ((hnew c).mpr rfl)).1
      have hplain := hh.plain_enter hP hstack
      cases hplain
    | destroy v _ _ _ _ _ hvalue => cases hvalue.symm.trans hv'

theorem Hosted.permits_nonneg (hh : Hosted P w) (hw : ∀ x, 0 ≤ weight x)
    (hwait : ∀ shared place next, P.code shared place = .call (.semaphoreP i) next →
      1 ≤ weight (none, next))
    (hv : ∀ v, w.sys.semaphores i = some v → 0 ≤ v) :
    0 ≤ w.sys.permits i + w.total weight ∧ ∀ t, w.sys.Forked t → t ∉ w.sys.contents (.sem i) →
      weight (w.pos t) ≤ w.sys.permits i + w.total weight := by
  have hvalue : 0 ≤ (w.sys.semaphores i).getD 0 := by
    cases hsem : w.sys.semaphores i with
    | none => exact le_rfl
    | some v => exact hv v hsem
  have hcount : w.sys.semaphoreWaiters i = (w.sys.contents (.sem i)).length :=
    (hh.calm.waits.contents (mem_semQueue (i := i))).1
  have hnodup := hh.calm.unjoined.standing.nodup (.sem i)
  have hmem : ∀ t ∈ w.sys.contents (.sem i),
      t ∈ tids w.sys.gThreadID ∧ 1 ≤ weight (w.pos t) := by
    intro t ht
    obtain ⟨hforked, hcalling, shared, place, hcode⟩ := hh.waits i t ht
    refine ⟨mem_tids.mpr hforked, ?_⟩
    rw [World.pos, hcalling]
    exact hwait _ _ _ hcode
  refine ⟨?_, fun t hforked hnot => ?_⟩
  · have hle := length_le_tally hw hnodup hmem
    rw [State.permits, hcount, World.total]
    omega
  · have hle := length_add_le_tally hw hnodup hmem (mem_tids.mpr hforked) hnot
    rw [State.permits, hcount, World.total]
    omega

end Permits

end UserThreads.Threads
