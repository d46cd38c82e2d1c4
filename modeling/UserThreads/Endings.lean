import UserThreads.Joining
import UserThreads.ThreadStart

/-!
The two ways in which a thread ends. When its function returns, the epilogue of
`incrementStack` makes the threads ready that `tcbWaiting` shows to be waiting
for it, and records the exit if it found none. `t_exit` leaves for the scheduler
and does neither. A thread that has ended, either way, executes nothing again.
-/
namespace UserThreads.Threads

open LinkedCells Queue Runs

namespace State

/-- The thread has entered its body and nothing is left of it. -/
def Gone (s : State) (t : Tid) : Prop := entries t s.hist ≠ [] ∧ s.point t = []

/-- The thread is blocked in `t_join(tid)`. -/
def Awaits (s : State) (t tid : Tid) : Prop :=
  ¬ s.Running t ∧ MultilevelQueue.Absent s.contents t ∧ s.Joins t tid

end State

/-- What holds of threads that have an exit record, and of tids never handed out. -/
structure ExitsOk (s : State) : Prop where
  exited : ∀ t ∈ s.exitedThreadIDs, entries t s.hist ≠ [] ∧
    (s.point t = [] ∨ s.point t = [.leave])
  next : 0 ≤ s.gThreadID
  unused : ∀ t, t ≤ 0 → (s.tcb t).flag ≠ 1 ∧ s.point t = []

variable {g : Grain} {s s' : State} {m : Move} {t : Tid} {f : Frame} {k : List Frame}

theorem StartOk.entered_user (ho : StartOk s) (hpoint : s.point t ≠ [])
    (hstart : .start ∉ s.point t) : entries t s.hist ≠ [] :=
  (ho.entered t hpoint).resolve_left hstart

/-- A thread that has entered its body is not started again. -/
theorem StartOk.flag_ne (ho : StartOk s) (ht : entries t s.hist ≠ []) : (s.tcb t).flag ≠ 1 :=
  fun hflag => ht (ho.newborn t (Or.inl hflag)).1

theorem StartOk.le_gThreadID (ho : StartOk s) (ht : entries t s.hist ≠ []) : t ≤ s.gThreadID :=
  le_of_not_gt fun hlt => ht (ho.unmade t hlt).1

/-- A thread that does not execute and has entered its body stays where it is. -/
theorem Trans.point_kept (h : Trans g s m s') (hr : Regular s) (ho : StartOk s)
    (ht : entries t s.hist ≠ []) (hidle : t = s.currentRunningThread → ¬ s.Executes m) :
    s'.point t = s.point t := by
  rcases h.point hr.parked t with hsame | ⟨hcur, hexec⟩ | ⟨hstarts, -⟩ | ⟨hid, -⟩
  · exact hsame
  · exact absurd hexec (hidle hcur)
  · exact absurd hstarts.flag (ho.flag_ne ht)
  · have hle := ho.le_gThreadID ht
    rw [hid] at hle
    exact absurd hle (not_le_of_gt (lt_next _))

theorem State.Executes.ne_of_nil (h : s.Executes m) (ht : s.point t = []) :
    t ≠ s.currentRunningThread := by
  intro heq
  rw [heq, h.point] at ht
  exact h.own.2 ht

theorem Trans.gone (h : Trans g s m s') (hr : Regular s) (ho : StartOk s) (ht : s.Gone t) :
    s'.Gone t := by
  refine ⟨h.startMove.entries_mono ht.1, ?_⟩
  rw [h.point_kept hr ho ht.1 fun heq hexec => hexec.ne_of_nil ht.2 heq]
  exact ht.2

/-- Whose exit a move records. -/
theorem Trans.exited_cases (h : Trans g s m s') :
    s'.exitedThreadIDs = s.exitedThreadIDs ∨
      (∃ i k, s.stack = .wake i false :: k) ∧ m = .exec ∧ s'.stack = [.leave] ∧
        s'.currentRunningThread = s.currentRunningThread ∧
        s'.exitedThreadIDs = s.exitedThreadIDs ++ [s.currentRunningThread] := by
  cases h with
  | record i k hstack => exact Or.inr ⟨⟨i, k, hstack⟩, rfl, rfl, rfl, rfl⟩
  | _ => exact Or.inl rfl

theorem Trans.gone_exited (h : Trans g s m s') (ht : s.Gone t)
    (hmem : t ∈ s'.exitedThreadIDs) : t ∈ s.exitedThreadIDs := by
  rcases h.exited_cases with hsame | ⟨⟨i, k, hstack⟩, rfl, -, -, happend⟩
  · exact hsame ▸ hmem
  · rw [happend] at hmem
    rcases List.mem_append.mp hmem with hold | hnew
    · exact hold
    · have hexec : s.Executes .exec := ⟨by simp, _, k, hstack, rfl, rfl⟩
      exact absurd (List.mem_singleton.mp hnew) (hexec.ne_of_nil ht.2)

theorem StartMove.flag (h : StartMove s s' m) (ht : t ≠ s.gThreadID + 1)
    (hflag : (s'.tcb t).flag = 1) : (s.tcb t).flag = 1 := by
  cases h with
  | none _ _ _ _ _ _ hsame => exact hsame t hflag
  | fork _ _ _ _ _ _ _ htcb => rwa [htcb, Function.update_of_ne ht] at hflag
  | start u _ _ _ _ _ _ htcb =>
    by_cases hu : t = u
    · simp [htcb, hu] at hflag
    · rwa [htcb, Function.update_of_ne hu] at hflag
  | enter _ _ _ _ _ htcb => rwa [htcb] at hflag

/-- The last step of a thread whose function has returned. -/
theorem step_leave (hstep : step g m s = some s') (hm : m ≠ .expire)
    (hstack : s.stack = [.leave]) : s' = (abandon s).goto [.sitBottom] := by
  cases m with
  | expire => exact absurd rfl hm
  | call | finish => simp [step, hstack] at hstep
  | exec =>
    simp only [step, exec, hstack, Option.some.injEq] at hstep
    exact hstep.symm

/-- A thread without a context is gone once it is off the stack. -/
theorem point_dead (hstack : s.stack = [f]) (hf : f.isSystem = true) (hf' : f.isTimer = false)
    (ht : (s.tcb t).context = none) : s.point t = [] := by
  rw [State.point_of_nil (by simp [hstack, body, hf, hf']), ht]
  rfl

theorem ExitsOk.step (he : ExitsOk s) (hstep : step g m s = some s') (hr : Regular s)
    (ho : StartOk s) : ExitsOk s' := by
  have h := step_trans hstep
  have hmono : ∀ {t}, entries t s.hist ≠ [] → entries t s'.hist ≠ [] :=
    fun ht => h.startMove.entries_mono ht
  refine ⟨fun t ht => ?_, le_trans he.next h.gThreadID_le, fun t ht => ?_⟩
  · have hold : t ∈ s.exitedThreadIDs →
        entries t s'.hist ≠ [] ∧ (s'.point t = [] ∨ s'.point t = [.leave]) := by
      intro hmem
      obtain ⟨hentered, hpoint⟩ := he.exited t hmem
      refine ⟨hmono hentered, ?_⟩
      by_cases hexec : t = s.currentRunningThread ∧ s.Executes m
      · obtain ⟨rfl, hexec⟩ := hexec
        rw [hexec.point] at hpoint
        rw [step_leave hstep hexec.1 (hpoint.resolve_left hexec.own.2)]
        exact Or.inl (point_dead rfl rfl rfl (by simp [abandon, State.setTcb, State.goto]))
      · rwa [h.point_kept hr ho hentered fun heq hexec' => hexec ⟨heq, hexec'⟩]
    rcases h.exited_cases with hsame | ⟨⟨i, k, hstack⟩, rfl, hstack', hcur, happend⟩
    · exact hold (hsame ▸ ht)
    · rw [happend] at ht
      rcases List.mem_append.mp ht with hmem | hnew
      · exact hold hmem
      · obtain rfl := List.mem_singleton.mp hnew
        have hexec : s.Executes .exec := ⟨by simp, _, k, hstack, rfl, rfl⟩
        have hw := hr.shaped.stack
        refine ⟨hmono (ho.entered_user ?_ ?_), Or.inr ?_⟩
        · rw [hexec.point]
          exact hexec.own.2
        · rw [hexec.point]
          intro hmem
          obtain ⟨k', hk'⟩ := hexec.start_top hr.shaped hmem
          rw [hstack] at hk'
          cases hk'
        · rw [← hcur, State.point_current (by rw [hstack']; exact body_own_ne_nil rfl rfl), hstack']
          rfl
  · obtain ⟨hflag, hpoint⟩ := he.unused t ht
    have hid : t ≠ s.gThreadID + 1 := by
      intro heq
      rw [heq] at ht
      exact absurd ht (not_le_of_gt (Int.lt_add_one_of_le he.next))
    refine ⟨fun hflag' => hflag (h.startMove.flag hid hflag'), ?_⟩
    rcases h.point hr.parked t with hsame | ⟨hcur, hexec⟩ | ⟨hstarts, -⟩ | ⟨-, hnil⟩
    · exact hsame.trans hpoint
    · exact absurd hcur (hexec.ne_of_nil hpoint)
    · exact absurd hstarts.flag hflag
    · exact hnil

theorem Initial.exitsOk (h : Initial s) : ExitsOk s := by
  have hpoint := h.point
  obtain ⟨f, v, p, hb⟩ := h.begun
  refine ⟨by simp [hb.exited], by simp [hb.gThreadID], fun t ht => ⟨?_, hpoint t⟩⟩
  have hne : t ≠ 1 := by
    intro heq
    rw [heq] at ht
    exact absurd ht (by decide)
  simp [hb.tcb, Function.update_of_ne hne]

/-- What holds at every state of an execution about threads that start and end. -/
structure Lives (s : State) : Prop where
  regular : Regular s
  starts : StartOk s
  exits : ExitsOk s

theorem Lives.step (h : Lives s ∧ QueuesOk WaitQueues s) (hstep : step g m s = some s') :
    Lives s' ∧ QueuesOk WaitQueues s' := by
  obtain ⟨⟨hr, ho, he⟩, hq⟩ := h
  have h := step_trans hstep
  exact ⟨⟨h.regular hr, h.startOk hr hq ho, he.step hstep hr ho⟩, h.queuesOk hq steady_waitQueues⟩

theorem lives_of_run {ok : Move → State → Prop} {s₀ : State} (h₀ : Initial s₀)
    (hrun : Run (step g) ok s₀ s) : Lives s ∧ QueuesOk WaitQueues s :=
  hrun.invariant (I := fun a => Lives a ∧ QueuesOk WaitQueues a)
    ⟨⟨h₀.regular, h₀.startOk, h₀.exitsOk⟩, h₀.queuesOk⟩ fun _ _ _ hI _ hstep => Lives.step hI hstep

/-- The thread that executes its own code has entered its body, has no exit record
and has a positive tid. -/
theorem Lives.user (h : Lives s) (hstack : s.stack = [.user]) :
    entries s.currentRunningThread s.hist ≠ [] ∧
      s.currentRunningThread ∉ s.exitedThreadIDs ∧ 0 < s.currentRunningThread := by
  have hpoint : s.point s.currentRunningThread = [.user] := by
    rw [State.point_current (by rw [hstack]; exact body_own_ne_nil rfl rfl), hstack]
    rfl
  refine ⟨h.starts.entered_user (by simp [hpoint]) (by simp [hpoint]), fun hmem => ?_, ?_⟩
  · have hexited := (h.exits.exited _ hmem).2
    simp [hpoint] at hexited
  · by_contra hle
    have hnil := (h.exits.unused _ (not_lt.mp hle)).2
    simp [hpoint] at hnil

section Epilogue

/-! The epilogue of a thread that has returned from its function in state `y`. -/

/-- The wake loop has come upon a thread that waits for the running one in a slot below `i`. -/
def Found (y : State) (i : ℕ) : Prop := ∃ j < i, joinTarget y j = y.currentRunningThread

def Readied (es : List Event) : Prop := ∃ p t, .inserted (.ready p) t ∈ es

/-- Where the epilogue is, and what it has made of the slots so far; `es` is what has
happened since the function returned. -/
inductive Loop (y a : State) (es : List Event) : Prop
  | head (i : ℕ) (waked : Bool) (hstack : a.stack = [.wake i waked]) (hi : i ≤ 50)
      (hfound : waked = true ↔ Found y i) (hes : Readied es ↔ Found y i)
      (hexited : a.exitedThreadIDs = y.exitedThreadIDs)
  | test (i : ℕ) (waked : Bool) (hstack : a.stack = [.wakeTest i waked]) (hi : i < 50)
      (hfound : waked = true ↔ Found y i) (hes : Readied es ↔ Found y i)
      (hexited : a.exitedThreadIDs = y.exitedThreadIDs)
  | hit (i : ℕ) (f : Frame) (hstack : a.stack = [f]) (hi : i < 50)
      (hf : f = .wakeTake i ∨ (∃ t, f = .insert i t) ∨
        ∃ pc t p b, f = .inserting pc i t p b ∧ (pc = .count → Readied es))
      (hfound : Found y (i + 1)) (hexited : a.exitedThreadIDs = y.exitedThreadIDs)
  | leave (hstack : a.stack = [.leave]) (hes : Readied es ↔ Found y 50)
      (hexited : y.currentRunningThread ∈ a.exitedThreadIDs ↔ ¬ Found y 50)

/-- The thread is in its epilogue. -/
structure Unwinds (y a : State) : Prop where
  current : a.currentRunningThread = y.currentRunningThread
  target : ∀ j, joinTarget a j = joinTarget y j
  loop : ∃ es, a.hist = es ++ y.hist ∧ Loop y a es

/-- The epilogue is over. -/
structure Unwound (y a : State) : Prop where
  stack : a.stack = [.sitBottom]
  current : a.currentRunningThread = y.currentRunningThread
  gone : a.point y.currentRunningThread = []
  hist : ∃ es, a.hist = es ++ y.hist ∧ (Readied es ↔ Found y 50)
  exited : y.currentRunningThread ∈ a.exitedThreadIDs ↔ ¬ Found y 50

variable {y a b : State}

theorem found_succ {i : ℕ} :
    Found y (i + 1) ↔ Found y i ∨ joinTarget y i = y.currentRunningThread := by
  simp only [Found, Nat.lt_succ_iff_lt_or_eq, or_and_right, exists_or, exists_eq_left]

theorem found_miss {i : ℕ} (h : joinTarget y i ≠ y.currentRunningThread) :
    Found y (i + 1) ↔ Found y i :=
  found_succ.trans (or_iff_left h)

theorem Unwinds.finish (hstack : y.stack = [.user])
    (hstep : step g .finish y = some a) : Unwinds y a := by
  simp only [step, hstack, if_true, Option.some.injEq] at hstep
  subst hstep
  refine ⟨rfl, fun _ => rfl, [.ended y.currentRunningThread], rfl, ?_⟩
  refine .head 0 false rfl (Nat.zero_le 50) ?_ ?_ rfl <;> simp [Found, Readied]

theorem Unwinds.phase (h : Unwinds y a) : phase a.stack = .epilogue := by
  obtain ⟨es, -, hloop⟩ := h.loop
  cases hloop with
  | head _ _ hk | test _ _ hk | leave hk => rw [hk]; rfl
  | hit _ _ hk _ hf =>
    rw [hk]
    rcases hf with rfl | ⟨_, rfl⟩ | ⟨_, _, _, _, rfl, -⟩ <;> rfl

/-- A step of the epilogue that keeps tcbs, the join table and the running thread. -/
theorem Unwinds.next {es : List Event} (h : Unwinds y a) (es' : List Event)
    (hhist : a.hist = es ++ y.hist)
    (hcur : b.currentRunningThread = a.currentRunningThread) (htcb : b.tcb = a.tcb)
    (htable : b.tcbWaiting = a.tcbWaiting) (hhist' : b.hist = es' ++ a.hist)
    (hloop : Loop y b (es' ++ es)) : Unwinds y b := by
  refine ⟨hcur.trans h.current, fun j => ?_, _, ?_, hloop⟩
  · rw [← h.target j, joinTarget, joinTarget, htcb, htable]
  · rw [hhist', hhist, List.append_assoc]

theorem Unwinds.step_hit {i : ℕ} {es : List Event} (h : Unwinds y a)
    (hhist : a.hist = es ++ y.hist) (hstack : a.stack = [f]) (hi : i < 50)
    (hf : f = .wakeTake i ∨ (∃ t, f = .insert i t) ∨
      ∃ pc t p b, f = .inserting pc i t p b ∧ (pc = .count → Readied es))
    (hfound : Found y (i + 1)) (hexited : a.exitedThreadIDs = y.exitedThreadIDs)
    (hstep : step g .exec a = some b) : Unwinds y b := by
  have hnext : ∀ {b : State} {es' : List Event}, b.stack = [.wake (i + 1) true] →
      b.exitedThreadIDs = a.exitedThreadIDs → Readied (es' ++ es) → Loop y b (es' ++ es) := by
    intro b es' hb hb' hes
    exact .head (i + 1) true hb (Nat.succ_le_of_lt hi) (iff_of_true rfl hfound)
      (iff_of_true hes hfound) (hb'.trans hexited)
  rcases hf with rfl | ⟨t, rfl⟩ | ⟨pc, t, p, c, rfl, hcount⟩
  · simp only [step, exec, hstack, wakeTake, Option.bind_eq_bind, Option.bind_eq_some_iff,
      Option.some.injEq] at hstep
    obtain ⟨t, -, rfl⟩ := hstep
    exact h.next [] hhist rfl rfl rfl rfl
      (.hit i _ rfl hi (Or.inr (Or.inl ⟨t, rfl⟩)) hfound hexited)
  · cases g with
    | routine =>
      simp only [step, exec, hstack, insertWhole, Option.bind_eq_bind, Option.bind_eq_some_iff,
        Option.some.injEq] at hstep
      obtain ⟨s₁, henq, rfl⟩ := hstep
      obtain ⟨-, store, -, rfl⟩ := enqueue_spec henq
      exact h.next [_] hhist rfl rfl rfl rfl
        (hnext rfl rfl ⟨_, t, List.mem_cons_self ..⟩)
    | statement =>
      simp only [step, exec, hstack, insertCall, Option.bind_eq_bind, Option.bind_eq_some_iff,
        Option.some.injEq] at hstep
      obtain ⟨_, -, store, -, linked, -, rfl⟩ := hstep
      refine h.next [] hhist rfl rfl rfl rfl
        (.hit i _ rfl hi (Or.inr (Or.inr ⟨_, t, _, _, rfl, fun hpc => ?_⟩)) hfound hexited)
      cases linked <;> cases hpc
  · cases g with
    | routine => simp [step, exec, hstack] at hstep
    | statement =>
      have hkeep : ∀ {b : State} {pc : InsertPoint}, b.stack = [.inserting pc i t p c] →
          b.exitedThreadIDs = a.exitedThreadIDs → pc ≠ .count → Loop y b ([] ++ es) := by
        intro b pc hb hb' hpc
        exact .hit i _ hb hi (Or.inr (Or.inr ⟨pc, t, p, c, rfl, fun h => absurd h hpc⟩)) hfound
          (hb'.trans hexited)
      cases pc with
      | count =>
        simp only [step, exec, hstack, inserting, Option.some.injEq] at hstep
        subst hstep
        exact h.next [] hhist rfl rfl rfl rfl (hnext rfl rfl (hcount rfl))
      | numObj =>
        simp only [step, exec, hstack, inserting, Option.bind_eq_bind, Option.bind_eq_some_iff,
          Option.some.injEq] at hstep
        obtain ⟨store, -, rfl⟩ := hstep
        exact h.next [_] hhist rfl rfl rfl rfl
          (.hit i _ rfl hi (Or.inr (Or.inr ⟨_, t, p, c, rfl,
            fun _ => ⟨p, t, List.mem_cons_self ..⟩⟩)) hfound hexited)
      | noHead =>
        simp only [step, exec, hstack, inserting, Option.bind_eq_bind, Option.bind_eq_some_iff,
          Option.some.injEq] at hstep
        obtain ⟨first, -, rfl⟩ := hstep
        exact h.next [] hhist rfl rfl rfl rfl
          (hkeep rfl rfl (by cases first <;> simp))
      | tailNext | tail | head =>
        simp only [step, exec, hstack, inserting, Option.bind_eq_bind, Option.bind_eq_some_iff,
          Option.some.injEq] at hstep
        obtain ⟨store, -, rfl⟩ := hstep
        exact h.next [] hhist rfl rfl rfl rfl (hkeep rfl rfl (by simp))

theorem Unwinds.step (h : Unwinds y a) (hpos : 0 < y.currentRunningThread)
    (hnot : y.currentRunningThread ∉ y.exitedThreadIDs) (hm : m ≠ .expire)
    (hstep : step g m a = some b) : Unwinds y b ∨ Unwound y b := by
  obtain ⟨es, hhist, hloop⟩ := h.loop
  have hexec : ∀ {f : Frame}, a.stack = [f] → f ≠ .user → m = .exec := by
    intro f hstack hf
    cases m with
    | exec => rfl
    | expire => exact absurd rfl hm
    | call | finish => simp [Threads.step, hstack, hf] at hstep
  cases hloop with
  | head i waked hstack hi hfound hes hexited =>
    obtain rfl := hexec hstack (by simp)
    simp only [Threads.step, exec, hstack] at hstep
    unfold wake at hstep
    split at hstep
    · rename_i hlt
      split at hstep
      · rename_i htarget
        cases hstep
        exact Or.inl (h.next [] hhist rfl rfl rfl rfl
          (.test i waked rfl hlt hfound hes hexited))
      · rename_i htarget
        cases hstep
        rw [not_not, h.target] at htarget
        have hmiss := found_miss (htarget ▸ ne_of_lt hpos)
        exact Or.inl (h.next [] hhist rfl rfl rfl rfl
          (.head (i + 1) waked rfl (Nat.succ_le_of_lt hlt) (hfound.trans hmiss.symm)
            (hes.trans hmiss.symm) hexited))
    · rename_i hge
      obtain rfl : i = 50 := le_antisymm hi (not_lt.mp hge)
      cases waked with
      | true =>
        cases hstep
        refine Or.inl (h.next [] hhist rfl rfl rfl rfl (.leave rfl hes ?_))
        exact iff_of_false (by simpa [State.goto, hexited] using hnot)
          (not_not.mpr (hfound.mp rfl))
      | false =>
        simp only [Bool.false_eq_true, if_false, Option.bind_eq_bind, Option.bind_eq_some_iff,
          Option.some.injEq] at hstep
        obtain ⟨_, -, rfl⟩ := hstep
        refine Or.inl (h.next [] hhist rfl rfl rfl rfl (.leave rfl hes ?_))
        exact iff_of_true (by simp [h.current]) fun h' => by simpa using hfound.mpr h'
  | test i waked hstack hi hfound hes hexited =>
    obtain rfl := hexec hstack (by simp)
    simp only [Threads.step, exec, hstack, wakeTest, Option.some.injEq, h.current, h.target]
      at hstep
    split at hstep
    · rename_i htarget
      subst hstep
      exact Or.inl (h.next [] hhist rfl rfl rfl rfl
        (.hit i _ rfl hi (Or.inl rfl) (found_succ.mpr (Or.inr htarget.symm)) hexited))
    · rename_i htarget
      subst hstep
      have hmiss := found_miss (Ne.symm htarget)
      exact Or.inl (h.next [] hhist rfl rfl rfl rfl
        (.head (i + 1) waked rfl (Nat.succ_le_of_lt hi) (hfound.trans hmiss.symm)
          (hes.trans hmiss.symm) hexited))
  | hit i f hstack hi hf hfound hexited =>
    have hm : m = .exec := hexec hstack (by
      rcases hf with rfl | ⟨t, rfl⟩ | ⟨pc, t, p, c, rfl, -⟩ <;> simp)
    subst hm
    exact Or.inl (h.step_hit hhist hstack hi hf hfound hexited hstep)
  | leave hstack hes hexited =>
    rw [step_leave hstep hm hstack]
    refine Or.inr ⟨rfl, h.current, ?_, ⟨es, hhist, hes⟩, hexited⟩
    rw [← h.current]
    exact point_dead rfl rfl rfl (by simp [abandon, State.setTcb, State.goto])

end Epilogue

section Agreement

/-- The running thread calls `t_exit`, which leads to `e`. -/
def ByExit (g : Grain) (s e : State) : Prop :=
  ∃ val a, step g (.call (.tExit val)) s = some a ∧ step g .exec a = some e

/-- The function of the running thread returns, and the epilogue leads to `u`. -/
def ByReturn (g : Grain) (s u : State) : Prop :=
  ∃ a, step g .finish s = some a ∧
    Run (step g) (fun m b => m = .exec ∧ phase b.stack = .epilogue) a u ∧ u.stack = [.sitBottom]

/-- The thread has been put into a ready queue between the two states. -/
def MadeReady (s u : State) (t : Tid) : Prop :=
  ∃ es p, u.hist = es ++ s.hist ∧ .inserted (.ready p) t ∈ es

/-- Every `t_join(tid)` executed from the state on returns without blocking. -/
def JoinReturns (g : Grain) (u : State) (tid : Tid) : Prop :=
  ∀ w w' k, Run (step g) AnyTiming u w → w.stack = .enter (.tJoin tid) :: k →
    step g .exec w = some w' → w'.stack = .ret .void :: k

/-- Ending in `u` does for joiners what it should: it makes ready those who are
blocked on the thread, and lets those who come later through. -/
structure EndsForJoiners (g : Grain) (s u : State) : Prop where
  ready : ∀ t, MadeReady s u t ↔ s.Awaits t s.currentRunningThread
  later : JoinReturns g u s.currentRunningThread

variable {s₀ e u w : State} {ok : Move → State → Prop}

theorem gone_of_run (hlives : Lives s ∧ QueuesOk WaitQueues s) (ht : s.Gone t)
    (hrun : Run (step g) ok s w) : t ∈ w.exitedThreadIDs → t ∈ s.exitedThreadIDs := by
  have hinv := hrun.invariant
    (I := fun a => (Lives a ∧ QueuesOk WaitQueues a) ∧ a.Gone t ∧
      (t ∈ a.exitedThreadIDs → t ∈ s.exitedThreadIDs)) ⟨hlives, ht, id⟩ ?_
  · exact hinv.2.2
  · intro m a b hI _ hstep
    obtain ⟨hlives, hgone, hold⟩ := hI
    have h := step_trans hstep
    exact ⟨Lives.step hlives hstep, h.gone hlives.1.regular hlives.1.starts hgone,
      fun hmem => hold (h.gone_exited hgone hmem)⟩

theorem exited_of_run (ht : t ∈ s.exitedThreadIDs) (hrun : Run (step g) ok s w) :
    t ∈ w.exitedThreadIDs := by
  refine hrun.invariant (I := fun a => t ∈ a.exitedThreadIDs) ht fun m a b ha _ hstep => ?_
  rcases (step_trans hstep).exited_cases with hsame | ⟨-, -, -, -, happend⟩
  · exact hsame ▸ ha
  · rw [happend]
    exact List.mem_append_left _ ha

/-- `t_join` returns at once exactly when the thread has an exit record. -/
theorem step_tJoin {tid : Tid} (hstack : w.stack = .enter (.tJoin tid) :: k) :
    ∃ w', step g .exec w = some w' ∧
      (w'.stack = .ret .void :: k ↔ tid ∈ w.exitedThreadIDs) := by
  refine ⟨tJoin k w tid, by simp [step, exec, hstack, enter], ?_⟩
  unfold tJoin
  by_cases hexited : tid ∈ w.exitedThreadIDs
  · simp [State.disableTimer, State.enableTimer, State.log, State.goto, hexited]
  · simp [State.disableTimer, State.setjmp, State.setTcb, hexited]

theorem joinReturns_of_exited {tid : Tid} (ht : tid ∈ s.exitedThreadIDs) :
    JoinReturns g s tid := by
  intro w w' k hrun hstack hstep
  obtain ⟨w'', hstep', hiff⟩ := step_tJoin (g := g) hstack
  rw [hstep] at hstep'
  cases hstep'
  exact hiff.mpr (exited_of_run ht hrun)

/-- What `t_exit` leaves behind. -/
theorem ByExit.spec (h : ByExit g s e) (hlives : Lives s) (hstack : s.stack = [.user]) :
    e.hist = .ended s.currentRunningThread :: s.hist ∧
      e.exitedThreadIDs = s.exitedThreadIDs ∧ e.Gone s.currentRunningThread := by
  obtain ⟨val, a, hcall, hexit⟩ := h
  simp only [step, hstack, if_true, Option.some.injEq] at hcall
  subst hcall
  simp only [step, exec, State.goto, enter, tExit, Option.some.injEq] at hexit
  subst hexit
  refine ⟨rfl, rfl, (hlives.user hstack).1, point_dead rfl rfl rfl ?_⟩
  simp [abandon, State.setTcb, State.log]

theorem ByReturn.unwound (h : ByReturn g s u) (hlives : Lives s) (hstack : s.stack = [.user]) :
    Unwound s u := by
  obtain ⟨a, hfinish, hrun, hstack'⟩ := h
  obtain ⟨-, hnot, hpos⟩ := hlives.user hstack
  have hend := hrun.invariant (I := fun b => Unwinds s b ∨ Unwound s b)
    (Or.inl (Unwinds.finish hstack hfinish)) ?_
  · refine hend.resolve_left fun hunwinds => ?_
    have hphase := hunwinds.phase
    rw [hstack'] at hphase
    cases hphase
  · intro m b c hI hok hstep
    obtain ⟨rfl, hphase⟩ := hok
    refine hI.elim (fun hb => hb.step hpos hnot (by simp) hstep) fun hb => ?_
    rw [hb.stack] at hphase
    cases hphase

/-- After `t_exit` nobody is made ready, and every later `t_join` blocks. -/
theorem ByExit.joins (h : ByExit g s e) (hlives : Lives s ∧ QueuesOk WaitQueues s)
    (hstack : s.stack = [.user]) : (∀ t, ¬ MadeReady s e t) ∧
      (JoinReturns g e s.currentRunningThread ↔ ∀ w k, Run (step g) AnyTiming e w →
        w.stack ≠ .enter (.tJoin s.currentRunningThread) :: k) := by
  obtain ⟨hhist, hexited, hgone⟩ := h.spec hlives.1 hstack
  obtain ⟨-, hnot, -⟩ := hlives.1.user hstack
  obtain ⟨val, a, hcall, hexit⟩ := h
  have hlives' := Lives.step (Lives.step hlives hcall) hexit
  refine ⟨fun t hready => ?_, fun hreturns w k hrun hk => ?_, fun hnone w w' k hrun hk => ?_⟩
  · obtain ⟨es, p, hes, hmem⟩ := hready
    have hsame : es = [.ended s.currentRunningThread] :=
      List.append_cancel_right (hes.symm.trans hhist)
    simp [hsame] at hmem
  · obtain ⟨w', hstep, hiff⟩ := step_tJoin (g := g) hk
    have hmem := hiff.mp (hreturns w w' k hrun hk hstep)
    exact hnot (hexited ▸ gone_of_run hlives' hgone hrun hmem)
  · exact absurd hk (hnone w k hrun)

/-- After the function has returned, those found in `tcbWaiting` have been made
ready, and when there was none every later `t_join` returns. -/
theorem Unwound.joins (h : Unwound s u) : ((∀ t, ¬ MadeReady s u t) ↔ ¬ Found s 50) ∧
    (¬ Found s 50 → JoinReturns g u s.currentRunningThread) := by
  obtain ⟨es, hes, hfound⟩ := h.hist
  refine ⟨?_, fun hnone => joinReturns_of_exited (h.exited.mpr hnone)⟩
  rw [← hfound]
  constructor
  · intro hnone hready
    obtain ⟨p, t, hmem⟩ := hready
    exact hnone t ⟨es, p, hes, hmem⟩
  · intro hnone t hready
    obtain ⟨es', p, hes', hmem⟩ := hready
    obtain rfl : es' = es := List.append_cancel_right (hes'.symm.trans hes)
    exact hnone ⟨p, t, hmem⟩

/-- The two ways to end do for joiners what they should exactly when there are
none: nobody is blocked on the thread, no slot of `tcbWaiting` leads to one that
waits for it, and after the `t_exit` no `t_join` on it is ever executed. -/
theorem endings_agree_iff (h₀ : Initial s₀) (hrun : Run (step g) AnyTiming s₀ s)
    (hstack : s.stack = [.user]) (he : ByExit g s e) (hu : ByReturn g s u) :
    EndsForJoiners g s e ∧ EndsForJoiners g s u ↔
      (∀ t, ¬ s.Awaits t s.currentRunningThread) ∧
      (∀ j < 50, joinTarget s j ≠ s.currentRunningThread) ∧
      ∀ w k, Run (step g) AnyTiming e w →
        w.stack ≠ .enter (.tJoin s.currentRunningThread) :: k := by
  have hlives := lives_of_run h₀ hrun
  obtain ⟨hnone, hlater⟩ := he.joins hlives hstack
  obtain ⟨hfound, hreturns⟩ := (hu.unwound hlives.1 hstack).joins (g := g)
  have hslots : (∀ j < 50, joinTarget s j ≠ s.currentRunningThread) ↔ ¬ Found s 50 := by
    simp [Found]
  rw [hslots, ← hlater]
  constructor
  · intro h
    obtain ⟨hexit, hreturn⟩ := h
    have hnobody : ∀ t, ¬ s.Awaits t s.currentRunningThread := fun t ht =>
      hnone t ((hexit.ready t).mpr ht)
    exact ⟨hnobody, hfound.mp fun t ht => hnobody t ((hreturn.ready t).mp ht), hexit.later⟩
  · intro h
    obtain ⟨hnobody, hslot, hjoins⟩ := h
    exact ⟨⟨fun t => iff_of_false (hnone t) (hnobody t), hjoins⟩,
      fun t => iff_of_false (hfound.mpr hslot t) (hnobody t), hreturns hslot⟩

theorem exists_byExit (hstack : s.stack = [.user]) : ∃ e, ByExit g s e := by
  exact ⟨tExit (s.goto [.enter (.tExit 0), .user]), 0, _, by simp [step, hstack]; rfl, rfl⟩

/-- The epilogue of the running thread, computed. -/
def returned (g : Grain) (n : ℕ) (s : State) : Option State :=
  (step g .finish s).bind
    (play (step g) (fun m b => m = .exec ∧ phase b.stack = .epilogue) (List.replicate n .exec))

theorem exists_byReturn {n : ℕ} (h : (returned g n s).any (fun u => u.stack = [.sitBottom])) :
    ∃ u, ByReturn g s u := by
  obtain ⟨u, hu, hstack⟩ := (Option.any_eq_true ..).mp h
  obtain ⟨a, hfinish, hplay⟩ := Option.bind_eq_some_iff.mp hu
  obtain ⟨l, hpath, hl⟩ := path_of_play hplay
  exact ⟨u, a, hfinish, hpath.run hl, by simpa using hstack⟩

/-- Thread 1 joins thread 2, which is then in its own code. -/
def joinedRunner : List Move :=
  [.exec, .exec, .call (.tFork 0 .null 126), .exec, .exec, .call (.tJoin 2), .exec, .exec, .exec]

/-- When thread 2 calls `t_exit`, thread 1 stays blocked. -/
theorem exit_leaves_joiner :
    ∃ s₀ s e u, Initial s₀ ∧ Run (step .routine) AnyTiming s₀ s ∧ s.stack = [.user] ∧
      ByExit .routine s e ∧ ByReturn .routine s u ∧
      ¬ (EndsForJoiners .routine s e ∧ EndsForJoiners .routine s u) := by
  obtain ⟨s₀, s, h₀, hrun, hgood⟩ := exists_run .routine AnyTiming [] 127 joinedRunner
    (fun s => s.stack = [.user] && s.currentRunningThread = 2 && takenOut 1 s.hist &&
      (s.tcb 1).context = some [.joined 2, .user] &&
      (returned .routine 55 s).any fun u => u.stack = [.sitBottom]) (by decide +kernel)
  simp only [Bool.and_eq_true, decide_eq_true_eq] at hgood
  obtain ⟨⟨⟨⟨hstack, hcur⟩, htaken⟩, hcontext⟩, hreturned⟩ := hgood
  obtain ⟨e, he⟩ := exists_byExit (g := .routine) hstack
  obtain ⟨u, hu⟩ := exists_byReturn hreturned
  have hq : QueuesOk AllQueues s := queuesOk_of_run h₀ (fun _ => steady_of_routine) hrun
  refine ⟨s₀, s, e, u, h₀, hrun, hstack, he, hu, fun h => ?_⟩
  refine (he.joins (lives_of_run h₀ hrun) hstack).1 1 ((h.1.ready 1).mpr ⟨?_, ?_, ?_⟩)
  · simp [State.Running, hcur]
  · exact absent_of_takenOut hq htaken
  · exact ⟨[.user], by rw [hcur, hcontext]⟩

/-- A thread that nobody waits for ends either way. -/
theorem endings_agree_iff_alone :
    ∃ s₀ s e u, Initial s₀ ∧ ByExit .statement s e ∧ ByReturn .statement s u ∧
      (EndsForJoiners .statement s e ∧ EndsForJoiners .statement s u ↔
        (∀ t, ¬ s.Awaits t s.currentRunningThread) ∧
        (∀ j < 50, joinTarget s j ≠ s.currentRunningThread) ∧
        ∀ w k, Run (step .statement) AnyTiming e w →
          w.stack ≠ .enter (.tJoin s.currentRunningThread) :: k) := by
  obtain ⟨s₀, s, h₀, hrun, hgood⟩ := exists_run .statement AnyTiming [] 127 [.exec, .exec]
    (fun s => s.stack = [.user] && (returned .statement 52 s).any fun u => u.stack = [.sitBottom])
    (by decide +kernel)
  simp only [Bool.and_eq_true, decide_eq_true_eq] at hgood
  obtain ⟨hstack, hreturned⟩ := hgood
  obtain ⟨e, he⟩ := exists_byExit (g := .statement) hstack
  obtain ⟨u, hu⟩ := exists_byReturn hreturned
  exact ⟨s₀, s, e, u, h₀, he, hu, endings_agree_iff h₀ hrun hstack he hu⟩

end Agreement

section LaterJoins

/-! With each routine one step, nothing comes between the return of a thread's
function and the end of its epilogue. -/

variable {s₀ y a b x x' : State}

/-- The epilogue is over, and the thread has an exit record if it found no joiner. -/
structure Over (y b : State) : Prop where
  lives : Lives b ∧ QueuesOk WaitQueues b
  gone : b.Gone y.currentRunningThread
  exited : y.currentRunningThread ∈ b.exitedThreadIDs ↔ ¬ Found y 50

theorem Over.step (h : Over y a) (hstep : step g m a = some b) : Over y b where
  lives := Lives.step h.lives hstep
  gone := (step_trans hstep).gone h.lives.1.regular h.lives.1.starts h.gone
  exited := by
    rw [← h.exited]
    refine ⟨(step_trans hstep).gone_exited h.gone, fun hmem => ?_⟩
    have hrun : Run (Threads.step g) AnyTiming a b := .tail (.refl a) trivial hstep
    exact exited_of_run hmem hrun

theorem over_of_run (h₀ : Initial s₀) (hrun : Run (step .routine) Atomic s₀ y)
    (hstack : y.stack = [.user]) (hfinish : step .routine .finish y = some a)
    (hrest : Run (step .routine) Atomic a b) :
    (Lives b ∧ QueuesOk WaitQueues b ∧ entries y.currentRunningThread b.hist ≠ []) ∧
      Unwinds y b ∨ Over y b := by
  have hlives := lives_of_run h₀ hrun
  obtain ⟨hentered, hnot, hpos⟩ := hlives.1.user hstack
  obtain ⟨hlives', hq'⟩ := Lives.step hlives hfinish
  refine hrest.invariant (I := fun b => (Lives b ∧ QueuesOk WaitQueues b ∧
    entries y.currentRunningThread b.hist ≠ []) ∧ Unwinds y b ∨ Over y b)
    (Or.inl ⟨⟨hlives', hq', ?_⟩, .finish hstack hfinish⟩) ?_
  · exact (step_trans hfinish).startMove.entries_mono hentered
  · intro m b c hI hatomic hstep
    rcases hI with ⟨⟨hl, hq, hentered⟩, hunwinds⟩ | hover
    · obtain ⟨hl', hq'⟩ := Lives.step ⟨hl, hq⟩ hstep
      have hentered' := (step_trans hstep).startMove.entries_mono hentered
      have hm : m ≠ .expire := by
        intro hm
        have hphase := hunwinds.phase
        rw [hatomic hm] at hphase
        cases hphase
      rcases hunwinds.step hpos hnot hm hstep with hnext | hend
      · exact Or.inl ⟨⟨hl', hq', hentered'⟩, hnext⟩
      · exact Or.inr ⟨⟨hl', hq'⟩, ⟨hentered', hend.gone⟩, hend.exited⟩
    · exact Or.inr (hover.step hstep)

/-- A thread's function returns in `y`, and later somebody calls `t_join` on the
thread: the call returns at once exactly when no slot of `tcbWaiting` led to a
joiner of the thread at its return. -/
theorem later_join_returns_iff (h₀ : Initial s₀) (hrun : Run (step .routine) Atomic s₀ y)
    (hstack : y.stack = [.user]) (hfinish : step .routine .finish y = some a)
    (hrest : Run (step .routine) Atomic a x)
    (hjoin : x.stack = .enter (.tJoin y.currentRunningThread) :: k)
    (hstep : step .routine .exec x = some x') :
    x'.stack = .ret .void :: k ↔ ∀ j < 50, joinTarget y j ≠ y.currentRunningThread := by
  obtain ⟨w, hw, hiff⟩ := step_tJoin (g := .routine) hjoin
  rw [hstep] at hw
  cases hw
  rw [hiff]
  rcases over_of_run h₀ hrun hstack hfinish hrest with ⟨-, hunwinds⟩ | hover
  · have hphase := hunwinds.phase
    rw [hjoin] at hphase
    cases hphase
  · rw [hover.exited]
    simp [Found]

/-- Thread 2 returns while thread 1 is blocked on it; thread 1 goes on and joins
thread 2 again. -/
def joinsAgain : List Move := List.replicate 59 .exec ++ [.call (.tJoin 2)]

/-- The second join blocks, although thread 2 has terminated. -/
theorem later_join_blocks :
    ∃ s₀ y a x x', Initial s₀ ∧ Run (step .routine) Atomic s₀ y ∧ y.stack = [.user] ∧
      y.currentRunningThread = 2 ∧ step .routine .finish y = some a ∧
      Run (step .routine) Atomic a x ∧ x.stack = [.enter (.tJoin 2), .user] ∧
      step .routine .exec x = some x' ∧ x'.stack = [.sched] := by
  obtain ⟨s₀, y, h₀, hrun, hgood⟩ := exists_run .routine Atomic [] 127 joinedRunner
    (fun y => y.stack = [.user] && y.currentRunningThread = 2 &&
      (step .routine .finish y).any fun a =>
        (play (step .routine) Atomic joinsAgain a).any fun x =>
          x.stack = [.enter (.tJoin 2), .user] &&
            (step .routine .exec x).any fun x' => x'.stack = [.sched]) (by decide +kernel)
  simp only [Bool.and_eq_true, decide_eq_true_eq, Option.any_eq_true] at hgood
  obtain ⟨⟨hstack, hcur⟩, a, hfinish, x, hplay, hjoin, x', hstep, hblocked⟩ := hgood
  obtain ⟨l, hpath, hl⟩ := path_of_play hplay
  exact ⟨s₀, y, a, x, x', h₀, hrun, hstack, hcur, hfinish, hpath.run hl, hjoin, hstep, hblocked⟩

/-- Nobody joins thread 2 before it returns; a later join of thread 3 returns at once. -/
theorem later_join_returns_once :
    ∃ s₀ y a x x', Initial s₀ ∧ Run (step .routine) Atomic s₀ y ∧ y.stack = [.user] ∧
      y.currentRunningThread = 2 ∧ step .routine .finish y = some a ∧
      Run (step .routine) Atomic a x ∧ x.stack = [.enter (.tJoin 2), .user] ∧
      x.currentRunningThread = 3 ∧ step .routine .exec x = some x' ∧
      x'.stack = [.ret .void, .user] := by
  obtain ⟨s₀, y, h₀, hrun, hgood⟩ := exists_run .routine Atomic [] 127
    [.exec, .exec, .call (.tFork 0 .null 126), .exec, .exec, .call (.tFork 0 .null 125), .exec,
      .exec, .call (.tExit 0), .exec, .exec, .exec]
    (fun y => y.stack = [.user] && y.currentRunningThread = 2 &&
      ((List.range 50).all fun j => joinTarget y j ≠ y.currentRunningThread) &&
      (step .routine .finish y).any fun a =>
        (play (step .routine) Atomic (List.replicate 55 .exec ++ [.call (.tJoin 2)]) a).any fun x =>
          x.stack = [.enter (.tJoin 2), .user] && x.currentRunningThread = 3 &&
            (step .routine .exec x).isSome) (by decide +kernel)
  simp only [Bool.and_eq_true, decide_eq_true_eq, Option.any_eq_true, List.all_eq_true,
    List.mem_range] at hgood
  obtain ⟨⟨⟨hstack, hcur⟩, hnone⟩, a, hfinish, x, hplay, ⟨hjoin, hthree⟩, hsome⟩ := hgood
  obtain ⟨x', hstep⟩ := Option.isSome_iff_exists.mp hsome
  obtain ⟨l, hpath, hl⟩ := path_of_play hplay
  have hiff := later_join_returns_iff h₀ hrun hstack hfinish (hpath.run hl)
    (by rw [hcur]; exact hjoin) hstep
  exact ⟨s₀, y, a, x, x', h₀, hrun, hstack, hcur, hfinish, hpath.run hl, hjoin, hthree, hstep,
    hiff.mpr hnone⟩

end LaterJoins

end UserThreads.Threads
