import UserThreads.Standstill

/-!
Sections of a program, between a `lock_acquire` and the next call and between a `Semaphore_P`
and a `Semaphore_V`. The former exclude each other, whichever locks they are under, because
`lock_acquire` returns with SIGVTALRM blocked. For the latter the permits that the threads
hold, those that are free and those promised to the waiters add up to the count that the
semaphore was created with. So no more threads than that are ever in such a section, whatever
else they call there.
-/
namespace UserThreads.Threads

open LinkedCells Queue Runs MultilevelQueue Tallies

/-- Where a worker is, or the thread that forks two of them. -/
inductive Spot
  | first
  | second
  | enter
  | acquire
  | inside
  | release
  | leave
  | ends
deriving DecidableEq

/-- Two workers, each with a section under a lock within one of a semaphore. -/
def workers : Program Unit Spot where
  body f _ := if f = 0 then .first else .enter
  code _
    | .first => .call (.tFork 1 .null 127) .second
    | .second => .call (.tFork 1 .null 127) .ends
    | .enter => .call (.semaphoreP 1) .acquire
    | .acquire => .call (.lockAcquire 0) .inside
    | .inside => .act () .release
    | .release => .call (.lockRelease 0) .leave
    | .leave => .call (.semaphoreV 1) .ends
    | .ends => .ret

theorem workers_plain : workers.Plain := by
  intro _ place op next hcode
  cases place <;> cases hcode <;> rfl

section Locks

variable {G L : Type} {P : Program G L} {g : Grain} {w w₀ : World G L} {entry inner : L → Prop}
  {t : Tid}

/-- In a plain program, while a thread is in a section under a lock, no other thread is in one,
under this lock or another, the timer cannot fire, and the next step is one of the thread. -/
theorem sections_exclude {ok : Tick → World G L → Prop} {calls : List MainCall} {shared : G}
    (hP : P.Plain) (hs : P.Section entry inner) (h₀ : World.Opens P calls shared w₀)
    (hrun : Run (World.step g P) ok w₀ w) (ht : inner (w.threads t)) :
    (∀ u, inner (w.threads u) → u = t) ∧ w.step g P .expire = none ∧
      ∀ tick w', w.step g P tick = some w' → w'.sys.currentRunningThread = t ∧
        ∀ u, u ≠ t → w'.threads u = w.threads u := by
  have h : Secured P entry inner w :=
    (Secured.of_run (I := fun _ => True) hP hs h₀ trivial (fun _ _ _ _ _ _ _ => trivial) hrun).1
  obtain ⟨hcur, hblocked, hstack, -⟩ := h.running ht
  subst hcur
  have hexpire : step g .expire w.sys = none := by simp [step, hblocked]
  refine ⟨fun u hu => (h.running hu).1, by simp [World.step, hexpire], fun tick w' hstep => ?_⟩
  cases World.goes hstep with
  | expire s hmove => cases hexpire.symm.trans hmove
  | act shared next => exact ⟨rfl, fun u hu => Function.update_of_ne hu ..⟩
  | call op next s _ _ hmove =>
    simp only [step, hstack, if_true, Option.some.injEq] at hmove
    subst hmove
    exact ⟨rfl, fun u hu => Function.update_of_ne hu ..⟩
  | ret s _ _ hmove =>
    simp only [step, hstack, if_true, Option.some.injEq] at hmove
    subst hmove
    exact ⟨rfl, fun _ _ => rfl⟩
  | exec s hnot => exact absurd hstack hnot

theorem workers_section : workers.Section (· = .inside) (· = .release) where
  act _ place _ next hcode hnext := by
    cases place <;> cases hcode
    simp
  call _ place op next hcode := by cases place <;> cases hcode <;> simp
  ret _ place hcode := by
    cases place <;> cases hcode
    simp
  body f v := by
    simp only [workers]
    split_ifs <;> simp

/-- The first worker has executed the statement of its section. -/
theorem sections_exclude_two :
    ∃ w₀ w : World Unit Spot, World.Opens workers [.lock, .sem 1] () w₀ ∧
      w.threads 2 = .release ∧ w.sys.contents (.ready 127) = [3] ∧
      w.step .statement workers .expire = none := by
  obtain ⟨w₀, w, h₀, hrun, hgood⟩ := exists_world .statement EntersOwn workers [.lock, .sem 1] ()
    127 (List.replicate 73 .run)
    (fun w => w.threads 2 = .release && w.sys.contents (.ready 127) = [3]) (by decide +kernel)
  simp only [Bool.and_eq_true, decide_eq_true_eq] at hgood
  obtain ⟨hplace, hready⟩ := hgood
  exact ⟨w₀, w, h₀, hplace, hready,
    (sections_exclude workers_plain workers_section h₀ hrun hplace).2.1⟩

end Locks

variable {G L : Type} {P : Program G L} {i : SemId} {held : L → ℕ}

/-- `held` says how many permits of the semaphore a thread has at a place: one more after a
`Semaphore_P`, one less after a `Semaphore_V`, and none at the beginning. -/
structure Program.Brackets (P : Program G L) (i : SemId) (held : L → ℕ) : Prop where
  body : ∀ f v, held (P.body f v) = 0
  act : ∀ shared place shared' next, P.code shared place = .act shared' next →
    held next = held place
  call : ∀ shared place op next, P.code shared place = .call op next →
    (held next : ℤ) + op.posts i = held place

/-- The permits that a thread has: a call changes them when its routine is executed. -/
def permitsAt (i : SemId) (held : L → ℕ) : Option Op × L → ℤ
  | (none, place) => held place
  | (some op, place) => max 0 (held place + op.posts i)

theorem permitsAt_nonneg (x : Option Op × L) : 0 ≤ permitsAt i held x := by
  obtain ⟨op | op, place⟩ := x
  · exact Int.natCast_nonneg _
  · exact le_max_left ..

theorem Program.Brackets.permitsAt_call (hb : P.Brackets i held) {shared : G} {place next : L}
    {op : Op} (hcode : P.code shared place = .call op next) :
    permitsAt i held (some op, next) = held place := by
  rw [permitsAt, hb.call _ _ _ _ hcode]
  exact max_eq_right (Int.natCast_nonneg _)

/-- Who waits at the semaphore will have a permit. -/
theorem Program.Brackets.waits (hb : P.Brackets i held) {shared : G} {place next : L}
    (hcode : P.code shared place = .call (.semaphoreP i) next) :
    1 ≤ permitsAt i held (none, next) := by
  have hcall := hb.call _ _ _ _ hcode
  rw [permitsAt]
  simp only [Op.posts, reduceCtorEq, if_false, if_true] at hcall
  omega

/-- In every move the permits of the threads keep step with those of the semaphore. -/
theorem Program.Brackets.moves (hb : P.Brackets i held) {own : Prop} {shared shared' : G}
    {x y : Option Op × L} {d : SemId → ℤ} (h : Moves P own shared shared' x y d) :
    permitsAt i held x = permitsAt i held y + d i := by
  cases h with
  | stay => simp
  | act place next hcode => simp [permitsAt, hb.act _ _ _ _ hcode]
  | call op place next hcode => rw [hb.permitsAt_call hcode, permitsAt, Int.add_zero]
  | routine op before place next hcode =>
    rw [hb.permitsAt_call hcode, permitsAt, hb.call _ _ _ _ hcode]
  | start => simp [permitsAt, hb.body]

variable {g : Grain} {w w' w₀ : World G L} {tick : Tick} {c : ℤ}

/-- The account of the semaphore. -/
structure Permitted (P : Program G L) (i : SemId) (held : L → ℕ) (c : ℤ) (w : World G L) :
    Prop where
  hosted : Hosted P w
  value : ∀ v, w.sys.semaphores i = some v → 0 ≤ v
  free : FreeOk w.sys
  account : w.sys.permits i + w.total (permitsAt i held) = c

theorem Permitted.step (h : Permitted P i held c w) (hP : P.Plain) (hb : P.Brackets i held)
    (hstep : w.step g P tick = some w') : Permitted P i held c w' where
  hosted := h.hosted.step hP hstep
  value := h.hosted.value_nonneg hP hstep h.value
  free := by
    rcases (World.goes hstep).sys with hsys | ⟨m, hmove, -⟩
    · exact hsys ▸ h.free
    · exact h.hosted.calm.freeOk hmove h.free
  account := by
    have hturn : Turn P False w w' w.sys.currentRunningThread :=
      (World.goes hstep).turn h.hosted hP False.elim
    have hkept : -w'.sys.permits i - w'.total (permitsAt i held) =
        -w.sys.permits i - w.total (permitsAt i held) := by
      refine hturn.conserves (fun _ p => -p i) h.hosted.calm.lives.exits.next ?_ ?_
      · intro s s' x y d p hmove
        have hpermits := hb.moves hmove
        change -(p i + d i) + permitsAt i held x = -p i + permitsAt i held y
        omega
      · intro f v p before place next hcode
        have hcall := hb.call _ _ _ _ hcode
        rw [hb.permitsAt_call hcode, permitsAt, permitsAt, hb.body]
        simp only [Op.posts, reduceCtorEq, if_false] at hcall
        omega
    have haccount := h.account
    omega

/-- The waiters of a semaphore are counted. -/
theorem Hosted.permits_eq (hh : Hosted P w) (i : SemId) :
    w.sys.permits i = (w.sys.semaphores i).getD 0 - (w.sys.contents (.sem i)).length := by
  rw [State.permits, State.semaphoreWaiters,
    (hh.calm.waits.contents (mem_semQueue (i := i))).1]

theorem World.Opens.permitted {calls : List MainCall} {shared : G} (hb : P.Brackets i held)
    (h : World.Opens P calls shared w) (hc : 0 ≤ c) (hsem : w.sys.semaphores i = some c) :
    Permitted P i held c w where
  hosted := h.hosted
  value v hv := by
    cases hsem.symm.trans hv
    exact hc
  free := h.initial.freeOk
  account := by
    have hnowhere : w.sys.contents (.sem i) = [] := by
      have hqueues : QueuesOk AllQueues w.sys := h.initial.queuesOk
      obtain ⟨f, v, p, hbegun⟩ := h.initial.begun
      rw [hbegun.contents hqueues]
      rfl
    have hnone : w.total (permitsAt i held) = 0 := by
      refine World.total_zero fun t _ => ?_
      have hcalling : w.sys.calling t = none := calling_none.mpr (by simp [h.initial.point t])
      obtain ⟨-, -, -, -, hthreads⟩ := h
      rw [World.pos, hcalling, hthreads, permitsAt, hb.body]
      rfl
    rw [hnone, h.hosted.permits_eq, hsem, hnowhere]
    simp

theorem Permitted.of_run {ok : Tick → World G L → Prop} (hP : P.Plain) (hb : P.Brackets i held)
    (h₀ : Permitted P i held c w₀) (hrun : Run (World.step g P) ok w₀ w) :
    Permitted P i held c w :=
  hrun.invariant h₀ fun _ _ _ h _ hstep => h.step hP hb hstep

/-- Each waiter has one permit promised. -/
theorem Permitted.waiter (h : Permitted P i held c w) (hb : P.Brackets i held) {t : Tid}
    (ht : t ∈ w.sys.contents (.sem i)) :
    t ∈ tids w.sys.gThreadID ∧ 1 ≤ permitsAt i held (w.pos t) := by
  obtain ⟨hforked, hcalling, shared, place, hcode⟩ := h.hosted.waits i t ht
  refine ⟨mem_tids.mpr hforked, ?_⟩
  rw [World.pos, hcalling]
  exact hb.waits hcode

/-- A thread that has not called `Semaphore_P` has the permits of its place. -/
theorem held_le {t : Tid} (ht : w.sys.calling t ≠ some (.semaphoreP i)) :
    (held (w.threads t) : ℤ) ≤ permitsAt i held (w.pos t) := by
  rw [World.pos]
  cases hcalling : w.sys.calling t with
  | none => exact le_rfl
  | some op =>
    rw [hcalling] at ht
    have hposts : 0 ≤ op.posts i := by
      unfold Op.posts
      split_ifs with hV hP <;> simp_all
    exact le_trans (Int.le_add_of_nonneg_right hposts) (le_max_right ..)

theorem Permitted.value_nonneg (h : Permitted P i held c w) :
    0 ≤ (w.sys.semaphores i).getD 0 := by
  cases hsem : w.sys.semaphores i with
  | none => exact le_rfl
  | some v => exact h.value v hsem

/-- However the threads of a plain program are scheduled, those that have passed the `Semaphore_P`
of a semaphore and not come to the `Semaphore_V` hold no more permits than it was created
with, and if a thread waits at it, the threads hold exactly these. -/
theorem sections_hold_permits {ok : Tick → World G L → Prop} {calls : List MainCall} {shared : G}
    (hP : P.Plain) (hb : P.Brackets i held) (h₀ : World.Opens P calls shared w₀) (hc : 0 ≤ c)
    (hsem : w₀.sys.semaphores i = some c) (hrun : Run (World.step g P) ok w₀ w) :
    (∀ T : Finset ℤ, (∀ t ∈ T, w.sys.Forked t ∧ t ∉ w.sys.contents (.sem i) ∧
      w.sys.calling t ≠ some (.semaphoreP i)) → ∑ t ∈ T, (held (w.threads t) : ℤ) ≤ c) ∧
    (w.sys.contents (.sem i) ≠ [] →
      w.total (permitsAt i held) - (w.sys.contents (.sem i)).length = c) := by
  have h : Permitted P i held c w := (h₀.permitted hb hc hsem).of_run hP hb hrun
  have haccount := h.account
  have hpermits := h.hosted.permits_eq i
  refine ⟨fun T hT => ?_, fun hne => ?_⟩
  · have hnodup := h.hosted.calm.unjoined.standing.nodup (.sem i)
    have hvalue := h.value_nonneg
    have hsum : (w.sys.contents (.sem i)).length + tally (permitsAt i held) T w.pos ≤
        w.total (permitsAt i held) :=
      length_add_tally_le permitsAt_nonneg hnodup (fun t ht => h.waiter hb ht)
        (fun t ht => mem_tids.mpr (hT t ht).1) fun t ht => (hT t ht).2.1
    have hheld : ∑ t ∈ T, (held (w.threads t) : ℤ) ≤ tally (permitsAt i held) T w.pos :=
      Finset.sum_le_sum fun t ht => held_le (hT t ht).2.2
    omega
  · have hzero : (w.sys.semaphores i).getD 0 ≤ 0 := by
      by_contra hpos
      exact hne (h.free i (not_le.mp hpos))
    have hvalue := h.value_nonneg
    omega

def Spot.permits : Spot → ℕ
  | .acquire | .inside | .release | .leave => 1
  | _ => 0

theorem workers_brackets : workers.Brackets 1 Spot.permits where
  body f v := by
    change (if f = 0 then Spot.first else Spot.enter).permits = 0
    split_ifs <;> rfl
  act _ place _ next hcode := by
    cases place <;> cases hcode
    rfl
  call _ place op next hcode := by cases place <;> cases hcode <;> rfl

theorem workers_opened {w : World Unit Spot} (h : World.Opens workers [.lock, .sem 1] () w) :
    w.sys.semaphores 1 = some 1 := by
  obtain ⟨cap, p, hsys, -⟩ := h
  obtain ⟨a, hcalls, hstart⟩ := Option.bind_eq_some_iff.mp hsys
  have hprepared : Prepared a := ⟨cap, [.lock, .sem 1], hcalls⟩
  obtain ⟨store, -, -, hspec⟩ := tStart_spec hprepared.created hstart
  cases hcalls
  rw [hspec]
  rfl

/-- The first worker is preempted in its section and the second one waits. -/
theorem sections_hold_permits_two :
    ∃ w₀ w : World Unit Spot, World.Opens workers [.lock, .sem 1] () w₀ ∧
      w.threads 2 = .acquire ∧ w.sys.contents (.sem 1) = [3] ∧
      w.total (permitsAt 1 Spot.permits) - (w.sys.contents (.sem 1)).length = 1 := by
  obtain ⟨w₀, w, h₀, hrun, hgood⟩ := exists_world .statement EntersOwn workers
    [.lock, .sem 1] () 127 (List.replicate 67 .run ++ [.expire] ++ List.replicate 8 .run)
    (fun w => w.threads 2 = .acquire && w.sys.contents (.sem 1) = [3]) (by decide +kernel)
  simp only [Bool.and_eq_true, decide_eq_true_eq] at hgood
  obtain ⟨hinside, hwaits⟩ := hgood
  exact ⟨w₀, w, h₀, hinside, hwaits, (sections_hold_permits workers_plain workers_brackets h₀
    (by decide) (workers_opened h₀) hrun).2 (by simp [hwaits])⟩

end UserThreads.Threads
