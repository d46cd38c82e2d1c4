import UserThreads.CriticalSections
import UserThreads.Resting

/-!
A program of which no thread can go on. The programs of this module make no conditions
and call no `t_exit`, so a thread ends only by its return, and one that neither can run
nor has ended waits in `Semaphore_P`, at the place after the call. A semaphore that has
a permit has no waiters.
-/
namespace UserThreads.Threads

open LinkedCells Queue Runs MultilevelQueue

/-- The thread runs or is ready. -/
def State.Awake (s : State) (t : Tid) : Prop := s.Active t ∨ ∃ p, t ∈ s.contents (.ready p)

/-- A call of a program whose threads block at semaphores only, and end by their return. -/
def Op.semaphoreOnly : Op → Bool
  | .tExit _ | .condCreate .. => false
  | op => op.plain

/-- A semaphore with a permit has no waiters. -/
def FreeOk (s : State) : Prop :=
  ∀ i, 0 < (s.semaphores i).getD 0 → s.contents (.sem i) = []

section Library

variable {g : Grain} {s s' : State} {m : Move} {t : Tid}

theorem Calm.freeOk (hc : Calm s) (hstep : Threads.step g m s = some s') (hf : FreeOk s) :
    FreeOk s' := by
  have hq := hc.waits
  have hq' : QueuesOk WaitQueues s' := (Lives.step ⟨hc.lives, hq⟩ hstep).2
  intro i hpos
  have hcounter : s.semaphoreWaiters i = (s.contents (.sem i)).length :=
    (hq.contents (mem_semQueue (i := i))).1
  cases (step_trans hstep).semMove i with
  | keep es _ _ _ _ hvalue hhist hins hrem =>
    rw [(hq.sem_same es hq' hhist hins hrem).1]
    exact hf i (hvalue ▸ hpos)
  | pass v _ _ _ _ hsem hv _ hhist =>
    rw [(hq.sem_same [] hq' hhist rfl rfl).1]
    exact hf i (by rwa [hsem])
  | block t v _ _ _ _ _ hv hvalue =>
    rw [hvalue] at hpos
    exact absurd hpos hv
  | hand p t v _ _ _ _ hsem hvalue hcount =>
    rw [hf i (by rwa [hsem, ← hvalue])] at hcounter
    exact absurd hcounter (ne_of_gt hcount)
  | post v _ _ _ _ _ _ hcount hhist =>
    rw [(hq.sem_same [] hq' hhist rfl rfl).1, ← List.length_eq_zero_iff]
    omega
  | create c _ _ _ hi _ _ hhist =>
    rw [(hq.sem_same [] hq' hhist rfl rfl).1]
    simp [State.contents, Store.contents, hq.sem i (hi ▸ Nat.lt_succ_self _)]
  | destroy v _ _ _ _ _ hvalue =>
    rw [hvalue] at hpos
    exact absurd hpos (lt_irrefl _)

theorem Initial.freeOk (h : Initial s) : FreeOk s := by
  have hq : QueuesOk AllQueues s := h.queuesOk
  obtain ⟨f, v, p, hb⟩ := h.begun
  intro i _
  rw [hb.contents hq]
  rfl

theorem Trans.conditionID (h : Trans g s m s') :
    s'.conditionID = s.conditionID ∨
      ∃ lock k, s.stack = .enter (.condCreate lock true) :: k := by
  cases h with
  | newCond lock k hstack => exact Or.inr ⟨lock, k, hstack⟩
  | _ => exact Or.inl rfl

/-- What a thread that has ended is not about to do. -/
theorem RestOk.past (hr : RestOk s) (ht : s.Ended t) :
    s.calling t = none ∧ (t = s.currentRunningThread → s.stack ≠ [.user] ∧ s.stack ≠ [.start]) := by
  have hphase := (hr.after t ht).2
  refine ⟨calling_none.mpr fun op hpoint => hphase (by rw [hpoint]; rfl), ?_⟩
  rintro rfl
  refine ⟨fun hstack => hphase ?_, fun hstack => hphase ?_⟩ <;>
    rw [point_own hstack rfl rfl] <;> rfl

end Library

variable {G L : Type} {g : Grain} {P : Program G L} {w w' w₀ : World G L} {tick : Tick} {t : Tid}

def Program.SemaphoreOnly (P : Program G L) : Prop :=
  ∀ shared place op next, P.code shared place = .call op next → op.semaphoreOnly = true

theorem Program.SemaphoreOnly.plain (h : P.SemaphoreOnly) : P.Plain := by
  intro shared place op next hcode
  have hop := h _ _ _ _ hcode
  cases op <;> first | exact hop | rfl

/-- What holds of every world of such a program. -/
structure Settled (P : Program G L) (w : World G L) : Prop where
  hosted : Hosted P w
  rest : RestOk w.sys
  free : FreeOk w.sys
  conditions : w.sys.conditionID = 0
  returned : ∀ t, w.sys.Ended t → ∃ shared, P.code shared (w.threads t) = .ret

/-- A thread that has ended stays where it returned. -/
theorem Settled.threads_kept (hs : Settled P w) (h : Goes g P w tick w') (ht : w.sys.Ended t) :
    w'.threads t = w.threads t := by
  obtain ⟨-, hpast⟩ := hs.rest.past ht
  have hle : t ≤ w.sys.gThreadID := hs.hosted.calm.home.known t _ ht rfl
  cases h with
  | expire | ret => rfl
  | act shared next hstack | call op next s hstack =>
    refine Function.update_of_ne ?_ ..
    rintro rfl
    exact (hpast rfl).1 hstack
  | exec s _ hstep =>
    have hlaunch := P.launches w.sys w.threads
    generalize P.launch w.sys w.threads = threads at hlaunch ⊢
    cases hlaunch with
    | fork => exact Function.update_of_ne (ne_of_lt (lt_of_le_of_lt hle (lt_next _))) ..
    | start k hstack =>
      refine Function.update_of_ne ?_ ..
      rintro rfl
      obtain ⟨rfl, -⟩ := hs.hosted.newborn hstack
      exact (hpast rfl).2 hstack
    | same => rfl

theorem Settled.enter {op : Op} {k : List Frame} (hs : Settled P w) (hP : P.SemaphoreOnly)
    (hstack : w.sys.stack = .enter op :: k) : op.semaphoreOnly = true := by
  rcases hs.hosted.enter_cases hstack with ⟨-, hcalling⟩ | ⟨-, rfl | ⟨l, rfl⟩⟩
  · obtain ⟨shared, place, hcode⟩ := hs.hosted.called w.sys.currentRunningThread _ hcalling
    exact hP _ _ _ _ hcode
  · rfl
  · rfl

theorem Settled.returned_step (hs : Settled P w) (hP : P.SemaphoreOnly)
    (h : Goes g P w tick w') (ht : w'.sys.Ended t) :
    ∃ shared, P.code shared (w'.threads t) = .ret := by
  have hold : w.sys.Ended t → ∃ shared, P.code shared (w'.threads t) = .ret := by
    intro hended
    rw [hs.threads_kept h hended]
    exact hs.returned t hended
  -- the only step that ends a thread is its return
  have hnot : ∀ {m : Move} {s : State}, Threads.step g m w.sys = some s → s.Ended t →
      m ≠ .finish → w.sys.Ended t := by
    intro m s hstep hended hm
    rcases (step_trans hstep).ends hended with hold | ⟨-, ⟨hstack, hstack', -⟩ | ⟨n, k, hstack, -⟩⟩
    · exact hold
    · cases m with
      | finish => exact absurd rfl hm
      | expire =>
        simp only [Threads.step, hstack] at hstep
        split at hstep <;> cases hstep
        cases hstack'
      | call op =>
        simp only [Threads.step, hstack, if_true, Option.some.injEq] at hstep
        subst hstep
        cases hstack'
      | exec => simp [Threads.step, exec, hstack] at hstep
    · cases hs.enter hP hstack
  cases h with
  | act => exact hold ht
  | expire s hstep | exec s _ hstep | call op next s _ _ hstep =>
    exact hold (hnot hstep ht (by simp))
  | ret s hstack hcode hstep =>
    rcases (step_trans hstep).ends ht with hended | ⟨rfl, -⟩
    · exact hold hended
    · exact ⟨w.shared, hcode⟩

theorem Settled.step (hs : Settled P w) (hP : P.SemaphoreOnly)
    (h : w.step g P tick = some w') : Settled P w' := by
  have hgoes := World.goes h
  have hc := hs.hosted.calm
  refine ⟨hs.hosted.step hP.plain h, ?_, ?_, ?_, fun t => hs.returned_step hP hgoes⟩ <;>
    rcases hgoes.sys with hsys | ⟨m, hstep, -⟩
  · exact hsys ▸ hs.rest
  · exact (step_trans hstep).restOk hc hstep hs.rest
  · exact hsys ▸ hs.free
  · exact hc.freeOk hstep hs.free
  · exact hsys ▸ hs.conditions
  · rcases (step_trans hstep).conditionID with hsame | ⟨lock, k, hstack⟩
    · exact hsame.trans hs.conditions
    · cases hs.enter hP hstack

/-- Without a call of `cond_create` there are no conditions when `t_start` is called. -/
theorem mainCalls_conditionID {calls : List MainCall} {a b : State}
    (hnone : ∀ lock, MainCall.cond lock ∉ calls) (h : calls.foldlM mainCall a = some b) :
    b.conditionID = a.conditionID := by
  induction calls generalizing a with
  | nil =>
    cases h
    rfl
  | cons call calls ih =>
    rw [List.foldlM_cons] at h
    obtain ⟨c, hcall, hrest⟩ := Option.bind_eq_some_iff.mp h
    rw [ih (fun lock hmem => hnone lock (List.mem_cons_of_mem _ hmem)) hrest]
    cases call with
    | cond lock => exact absurd (List.mem_cons_self ..) (hnone lock)
    | lock | sem =>
      cases hcall
      rfl

theorem World.Opens.settled {calls : List MainCall} {shared : G}
    (h : World.Opens P calls shared w) (hnone : ∀ lock, MainCall.cond lock ∉ calls) :
    Settled P w := by
  have h₀ := h.initial
  have hhosted := h.hosted
  obtain ⟨f, v, q, hb⟩ := h₀.begun
  obtain ⟨cap, p, hsys, -, -⟩ := h
  obtain ⟨a, hcalls, hstart⟩ := Option.bind_eq_some_iff.mp hsys
  have hprepared : Prepared a := ⟨cap, calls, hcalls⟩
  obtain ⟨store, -, -, hspec⟩ := tStart_spec hprepared.created hstart
  refine ⟨hhosted, h₀.restOk, h₀.freeOk, ?_, fun t ht => ?_⟩
  · rw [hspec]
    exact mainCalls_conditionID hnone hcalls
  · simp [State.Ended, hb.hist] at ht

theorem settled_of_run {ok : Tick → World G L → Prop} {calls : List MainCall} {shared : G}
    (hP : P.SemaphoreOnly) (h₀ : World.Opens P calls shared w₀)
    (hnone : ∀ lock, MainCall.cond lock ∉ calls) (hrun : Run (World.step g P) ok w₀ w) :
    Settled P w :=
  hrun.invariant (h₀.settled hnone) fun _ _ _ hs _ hstep => hs.step hP hstep

/-- A thread that cannot run and has not ended waits in a `Semaphore_P` that its code has
called. -/
theorem Settled.asleep (hs : Settled P w) (ht : w.sys.Forked t) (hnot : ¬ w.sys.Ended t)
    (hasleep : ¬ w.sys.Awake t) :
    ∃ i, t ∈ w.sys.contents (.sem i) ∧ w.sys.calling t = none ∧
      ∃ shared place, P.code shared place = .call (.semaphoreP i) (w.threads t) := by
  rcases hs.rest.present t ht with hactive | ⟨q, hmem⟩ | hended
  · exact absurd (Or.inl hactive) hasleep
  · cases q with
    | ready p => exact absurd (Or.inr ⟨p, hmem⟩) hasleep
    | cond c p =>
      have hnone := hs.hosted.calm.waits.cond c p (hs.conditions ▸ Nat.zero_le c)
      simp [State.contents, Store.contents, hnone] at hmem
    | sem i =>
      obtain ⟨-, hcalling, hcode⟩ := hs.hosted.waits i t hmem
      exact ⟨i, hmem, hcalling, hcode⟩
  · exact absurd hended hnot

/-- As long as a thread can run `Scheduler` does not return. -/
theorem Settled.not_done (hs : Settled P w) (ht : w.sys.Awake t) : w.sys.stack ≠ [.done] := by
  intro hdone
  obtain ⟨-, -, hempty⟩ := hs.rest.done (Or.inl (by simp [hdone]))
  rcases ht with ⟨-, hbody⟩ | ⟨p, hmem⟩
  · exact hbody (by rw [hdone]; rfl)
  · rw [hempty p] at hmem
    cases hmem

end UserThreads.Threads
