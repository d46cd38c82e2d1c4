import UserThreads.Faults
import UserThreads.NestedForks
import UserThreads.Switches
import UserThreads.TableBounds

/-!
The order of the words of nested forks. One thread at a time is the last that has been forked
and has not ended; it has the processor or is the next to get it, and each thread below it
sleeps in its `t_fork`. What is still to come is what nested calls would still print from
there.
-/
namespace UserThreads.NestedForks

open Threads LinkedCells Queue Runs MultilevelQueue

variable {n f : ℕ} {prio : ℕ → ℤ}

section Processor

/-- The thread with the function `i` has forked the next one, and yielded in `t_fork`. -/
structure Sleeps (w : World (List Word) Place) (i : ℕ) : Prop where
  flag : (w.sys.tcb (tidOf i)).flag ≠ 1
  context : (w.sys.tcb (tidOf i)).context = some [.yielded, .forked (tidOf (i + 1)), .user]
  place : w.threads (tidOf i) = .second i

/-- The thread with the function `f` has been forked and not begun. -/
structure New (n f : ℕ) (w : World (List Word) Place) : Prop where
  flag : (w.sys.tcb (tidOf f)).flag = 1
  func : (w.sys.tcb (tidOf f)).func = f
  place : w.threads (tidOf f) = .first f
  last : w.sys.gThreadID = tidOf f
  past : Past n (n + 1) w.sys

/-- What the thread with the function `f` does when it is dispatched. -/
inductive Rests (n : ℕ) (prio : ℕ → ℤ) (f : ℕ) (w : World (List Word) Place) :
    List Word → Prop
  | new (h : New n f w) : Rests n prio f w (coming n f)
  | saved (τ k : List Frame) (rest : List Word) (hτ : ∀ x ∈ τ, x.isTimer = true)
      (hflag : (w.sys.tcb (tidOf f)).flag ≠ 1)
      (hcontext : (w.sys.tcb (tidOf f)).context = some (τ ++ k))
      (h : Stands n prio f w.sys k (w.threads (tidOf f)) rest) : Rests n prio f w rest

/-- The thread with the function `f` has the processor, and those below it sleep, each at its
level. -/
structure Leads (n : ℕ) (prio : ℕ → ℤ) (f : ℕ) (w : World (List Word) Place) : Prop where
  le : f ≤ n
  last : tidOf f ≤ w.sys.gThreadID
  below : ∀ i < f, Sleeps w i
  contents : w.sys.contents = sleepers prio f
  current : w.sys.currentRunningThread = tidOf f
  flag : (w.sys.tcb (tidOf f)).flag ≠ 1

/-- Who has the processor or is the next to get it, with the words that are still to come. -/
inductive Shape (n : ℕ) (prio : ℕ → ℤ) (w : World (List Word) Place) : List Word → Prop
  | on (f : ℕ) (τ k : List Frame) (rest : List Word) (hleads : Leads n prio f w)
      (hτ : ∀ x ∈ τ, x.isTimer = true) (hstack : w.sys.stack = τ ++ k)
      (h : Stands n prio f w.sys k (w.threads (tidOf f)) rest) : Shape n prio w rest
  | handing (f : ℕ) (hf : f < n) (hbelow : ∀ i < f, Sleeps w i)
      (hcontents : w.sys.contents =
        (sleepers prio f).append (.ready (prio (f + 1))) (tidOf (f + 1)))
      (hstack : w.sys.stack = [.enter .tYield, .forked (tidOf (f + 1)), .user])
      (hblocked : w.sys.blocked = true) (hcur : w.sys.currentRunningThread = tidOf f)
      (hflag : (w.sys.tcb (tidOf f)).flag ≠ 1) (hplace : w.threads (tidOf f) = .second f)
      (hnew : New n (f + 1) w) : Shape n prio w (coming n (f + 1))
  | off (f : ℕ) (rest : List Word) (hf : f ≤ n) (hlast : tidOf f ≤ w.sys.gThreadID)
      (hbelow : ∀ i < f, Sleeps w i) (hcontents : w.sys.contents = sleepers prio (f + 1))
      (hstack : w.sys.stack = [.sitBottom] ∨ w.sys.stack = [.sched])
      (hblocked : w.sys.blocked = true) (h : Rests n prio f w rest) : Shape n prio w rest
  | empty (hcontents : w.sys.contents = sleepers prio 0)
      (hstack : w.sys.stack = [.sched] ∨ w.sys.stack = [.done])
      (hblocked : w.sys.blocked = true) : Shape n prio w []

structure Nested (n : ℕ) (prio : ℕ → ℤ) (w : World (List Word) Place) : Prop where
  queues : QueuesOk AllQueues w.sys
  waiting : ∀ i, w.sys.tcbWaiting i = none
  priority : ∀ i, tidOf i ≤ w.sys.gThreadID → (w.sys.tcb (tidOf i)).priority = prio i
  shape : ∃ rest, w.shared ++ rest = script n ∧ Shape n prio w rest

variable {g : Grain} {w w' : World (List Word) Place} {s s' : State} {k : List Frame}
  {rest words : List Word} {t : Tid}

theorem Sleeps.kept {i : ℕ} (h : Sleeps w i) (htcb : w'.sys.tcb (tidOf i) = w.sys.tcb (tidOf i))
    (hplace : w'.threads (tidOf i) = w.threads (tidOf i)) : Sleeps w' i where
  flag := htcb ▸ h.flag
  context := htcb ▸ h.context
  place := hplace.trans h.place

theorem Leads.congr {s : State} (h : Leads n prio f w) (hcontents : s.contents = w.sys.contents)
    (hlast : s.gThreadID = w.sys.gThreadID)
    (hcur : s.currentRunningThread = w.sys.currentRunningThread) (htcb : s.tcb = w.sys.tcb) :
    Leads n prio f { w with sys := s } where
  le := h.le
  last := hlast ▸ h.last
  below i hi := (h.below i hi).kept (by rw [htcb]) rfl
  contents := hcontents.trans h.contents
  current := hcur.trans h.current
  flag := htcb ▸ h.flag

theorem New.caller (h : New n (f + 1) w) : tidOf f ≤ w.sys.gThreadID := by
  rw [h.last, tidOf_le]
  exact Nat.le_succ f

theorem Nested.level (h : Nested n prio w) (hcur : w.sys.currentRunningThread = tidOf f)
    (hlast : tidOf f ≤ w.sys.gThreadID) : w.sys.current.priority = prio f := by
  rw [State.current, hcur]
  exact h.priority f hlast

theorem Rests.congr {s : State} (h : Rests n prio f w rest) (htcb : s.tcb = w.sys.tcb)
    (hfunc : s.userFunction = w.sys.userFunction) (hlast : s.gThreadID = w.sys.gThreadID)
    (hexited : s.exitedThreadIDs = w.sys.exitedThreadIDs) :
    Rests n prio f { w with sys := s } rest := by
  cases h with
  | new h =>
    refine .new ⟨htcb ▸ h.flag, htcb ▸ h.func, h.place, hlast.trans h.last, ?_⟩
    rw [Past, hexited]
    exact h.past
  | saved τ k _ hτ hflag hcontext h =>
    exact .saved τ k _ hτ (htcb ▸ hflag) (htcb ▸ hcontext) (h.congr hfunc hlast hexited)

theorem tidOf_ne {i : ℕ} (hi : i < f) : tidOf i ≠ tidOf f :=
  fun heq => absurd (tidOf_inj.mp heq) (Nat.ne_of_lt hi)

/-- The thread that has the processor goes on with it. -/
theorem Advances.shape (hadv : Advances n prio f w w' k words rest) (h : Leads n prio f w) :
    Shape n prio w' rest := by
  have hkeeps := hadv.keeps
  refine .on f [] k rest ⟨h.le, hkeeps.last ▸ h.last, fun i hi => ?_,
    hkeeps.contents.trans h.contents, hkeeps.current.trans h.current, ?_⟩ (by simp) hadv.stack
    hadv.stands
  · have hne : tidOf i ≠ w.sys.currentRunningThread := h.current ▸ tidOf_ne hi
    exact (h.below i hi).kept (hkeeps.others _ hne) (hadv.others _ (tidOf_ne hi))
  · rw [hkeeps.flag]
    exact h.flag

/-- What a step has printed, and that no thread waits for another one. -/
structure Follows (n : ℕ) (prio : ℕ → ℤ) (w w' : World (List Word) Place) (rest : List Word) :
    Prop where
  waiting : w'.sys.tcbWaiting = w.sys.tcbWaiting
  last : w'.sys.gThreadID = w.sys.gThreadID ∨ ∃ f, w.sys.gThreadID = tidOf f ∧
    w'.sys.gThreadID = tidOf (f + 1) ∧ (w'.sys.tcb (tidOf (f + 1))).priority = prio (f + 1)
  shape : ∃ words rest', rest = words ++ rest' ∧ w'.shared = w.shared ++ words ∧
    Shape n prio w' rest'

/-- A step that prints nothing and forks no thread. -/
theorem Follows.quiet (hwaiting : w'.sys.tcbWaiting = w.sys.tcbWaiting)
    (hlast : w'.sys.gThreadID = w.sys.gThreadID) (hshared : w'.shared = w.shared)
    (hshape : Shape n prio w' rest) : Follows n prio w w' rest :=
  ⟨hwaiting, Or.inl hlast, [], rest, rfl, hshared.trans (List.append_nil _).symm, hshape⟩

/-- The interrupted thread is ready with the others that sleep. -/
theorem interrupted_shape {s : State} {τ : List Frame}
    (hpark : Parks w.sys s (.resumed :: τ ++ k) .sitBottom) (h : Nested n prio w)
    (hq : QueuesOk AllQueues s) (hleads : Leads n prio f w) (hτ : ∀ x ∈ τ, x.isTimer = true)
    (hstands : Stands n prio f w.sys k (w.threads (tidOf f)) rest) :
    Shape n prio { w with sys := s } rest := by
  have hcur := hleads.current
  refine .off f rest hleads.le (hpark.last ▸ hleads.last) (fun i hi => ?_) ?_
    (Or.inl hpark.stack) hpark.blocked (.saved (.resumed :: τ) k rest ?_ ?_ ?_ ?_)
  · refine (hleads.below i hi).kept ?_ rfl
    rw [hpark.tcb, hcur, Function.update_of_ne (tidOf_ne hi)]
  · rw [hpark.contents h.queues hq, hleads.contents, h.level hcur hleads.last, hcur, sleepers]
  · simpa [Frame.isTimer] using hτ
  · rw [hpark.tcb, hcur, Function.update_self, State.current, hcur]
    exact hleads.flag
  · rw [hpark.tcb, hcur, Function.update_self]
  · exact hstands.congr hpark.func hpark.last hpark.exited

/-- The new thread is above its parent, which is about to yield to it. -/
theorem forked_shape {s : State}
    (hforks : Forks w.sys s (f + 1) (prio (f + 1)) [.user]) (h : Nested n prio w)
    (hq : QueuesOk AllQueues s) (hleads : Leads n prio f w) (hlt : f < n)
    (hlast : w.sys.gThreadID = tidOf f) (hpast : Past n (n + 1) w.sys)
    (hplace : w.threads (tidOf f) = .second f) :
    Shape n prio ⟨s, w.shared, Function.update w.threads (tidOf (f + 1)) (.first (f + 1))⟩
      (coming n (f + 1)) := by
  have hnext : w.sys.gThreadID + 1 = tidOf (f + 1) := by rw [hlast, tidOf_succ]
  have hold : ∀ i < f + 1, s.tcb (tidOf i) = w.sys.tcb (tidOf i) := by
    intro i hi
    rw [hforks.tcb, hnext, Function.update_of_ne (tidOf_ne hi)]
  have hstack := hforks.stack
  rw [hnext] at hstack
  refine .handing f hlt (fun i hi => ?_) ?_ hstack hforks.blocked
    (hforks.current.trans hleads.current) ?_ ?_
    ⟨?_, ?_, Function.update_self .., hforks.last.trans hnext, ?_⟩
  · exact (hleads.below i hi).kept (hold i (Nat.lt_succ_of_lt hi))
      (Function.update_of_ne (tidOf_ne (Nat.lt_succ_of_lt hi)) ..)
  · rw [hforks.contents h.queues hq, hleads.contents, hnext]
  · rw [hold f (Nat.lt_succ_self f)]
    exact hleads.flag
  · exact (Function.update_of_ne (tidOf_ne (Nat.lt_succ_self f)) ..).trans hplace
  · rw [hforks.tcb, hnext, Function.update_self]
  · rw [hforks.tcb, hnext, Function.update_self]
  · rwa [Past, hforks.exited]

/-- The parent sleeps in `t_fork`, and the new thread is the highest of all. -/
theorem yielded_shape {s : State}
    (hpark : Parks w.sys s [.yielded, .forked (tidOf (f + 1)), .user] .sched)
    (h : Nested n prio w) (hprio : Rising prio) (hq : QueuesOk AllQueues s) (hlt : f < n)
    (hbelow : ∀ i < f, Sleeps w i)
    (hcontents : w.sys.contents =
      (sleepers prio f).append (.ready (prio (f + 1))) (tidOf (f + 1)))
    (hcur : w.sys.currentRunningThread = tidOf f) (hflag : (w.sys.tcb (tidOf f)).flag ≠ 1)
    (hplace : w.threads (tidOf f) = .second f) (hnew : New n (f + 1) w) :
    Shape n prio { w with sys := s } (coming n (f + 1)) := by
  have hlevel := h.level hcur hnew.caller
  have hother : ∀ i, i ≠ f → s.tcb (tidOf i) = w.sys.tcb (tidOf i) := by
    intro i hi
    rw [hpark.tcb, hcur, Function.update_of_ne fun heq => hi (tidOf_inj.mp heq)]
  have hnext := hother (f + 1) (Nat.succ_ne_self f)
  refine .off (f + 1) _ hlt (hpark.last ▸ hnew.last.symm.le) (fun i hi => ?_) ?_
    (Or.inr hpark.stack) hpark.blocked (.new ⟨?_, ?_, hnew.place, hpark.last.trans hnew.last, ?_⟩)
  · rcases Nat.lt_succ_iff_lt_or_eq.mp hi with hi | rfl
    · exact (hbelow i hi).kept (hother i (Nat.ne_of_lt hi)) rfl
    · refine ⟨?_, ?_, hplace⟩
      · rw [hpark.tcb, hcur, Function.update_self, State.current, hcur]
        exact hflag
      · rw [hpark.tcb, hcur, Function.update_self]
  · have hne : QRef.ready (prio (f + 1)) ≠ .ready (prio f) := by
      simpa using (hprio f).ne'
    rw [hpark.contents h.queues hq, hcontents, hlevel, hcur, Levels.append_comm hne]
    rfl
  · rw [hnext]
    exact hnew.flag
  · rw [hnext]
    exact hnew.func
  · rw [Past, hpark.exited]
    exact hnew.past

/-- When a thread has ended, the one that has forked it is the next. -/
theorem Leads.leave (h : Leads n prio f w) (hpast : Past n f w.sys) :
    Shape n prio { w with sys := w.sys.disableTimer.goto [.sched] } (ascent f) := by
  cases f with
  | zero => exact .empty h.contents (Or.inl rfl) rfl
  | succ i =>
    have hsleeps := h.below i (Nat.lt_succ_self i)
    refine .off i _ (Nat.le_of_succ_le h.le) (le_trans (tidOf_le.mpr (Nat.le_succ i)) h.last)
      (fun j hj => (h.below j (Nat.lt_succ_of_lt hj)).kept rfl rfl) h.contents (Or.inr rfl) rfl
      (.saved [] _ _ (by simp) hsleeps.flag hsleeps.context ?_)
    change Stands n prio i _ _ (w.threads (tidOf i)) _
    rw [hsleeps.place]
    exact .back _ (by simp [comeback, returning]) h.le hpast

/-- The thread that was forked last of those that have not ended is dispatched. -/
theorem Rests.dispatch {s : State} (hrests : Rests n prio f w rest) (hprio : Rising prio)
    (hq : QueuesOk AllQueues w.sys) (hf : f ≤ n) (hlast : tidOf f ≤ w.sys.gThreadID)
    (hbelow : ∀ i < f, Sleeps w i) (hcontents : w.sys.contents = sleepers prio (f + 1))
    (hstack : w.sys.stack = [.sched]) (hstep : Threads.step g .exec w.sys = some s) :
    s.tcbWaiting = w.sys.tcbWaiting ∧ s.gThreadID = w.sys.gThreadID ∧
      Shape n prio { w with sys := s } rest := by
  rcases step_sched hq hstack hstep with
    ⟨-, -, -, -, -, hnone⟩ | ⟨y, t, rest', hhead, hhigh, hcont, hd⟩
  · have htop := hnone (prio f)
    rw [hcontents, sleepers_top hprio] at htop
    cases htop
  rw [hcontents] at hhead hhigh hcont
  obtain ⟨rfl, htaken⟩ := sleepers_take hprio hhead hhigh
  rw [htaken] at hcont
  refine ⟨hd.waiting, hd.last, ?_⟩
  have hpast : ∀ {i}, Past n i w.sys → Past n i s := by
    intro i hi
    rwa [Past, hd.exited]
  rcases hd.goes with ⟨hone, hstack', hfunc, htcb⟩ | ⟨hnot, hcontext, hfunc, htcb⟩
  · cases hrests with
    | saved _ _ _ _ hflag => exact absurd hone hflag
    | new hnew =>
      refine .on f [] [.start] _ ⟨hf, hd.last ▸ hlast, fun i hi => ?_, hcont, hd.current, ?_⟩
        (by simp) hstack' ?_
      · exact (hbelow i hi).kept (by rw [htcb, Function.update_of_ne (tidOf_ne hi)]) rfl
      · rw [htcb, Function.update_self]
        exact zero_ne_one
      · change Stands n prio f s [.start] (w.threads (tidOf f)) _
        rw [hnew.place]
        exact .start (hfunc.trans hnew.func) (hd.last.trans hnew.last) (hpast hnew.past)
  · cases hrests with
    | new hnew => exact absurd hnew.flag hnot
    | saved τ k _ hτ hflag hsaved hstands =>
      have hstack' : s.stack = τ ++ k := Option.some.inj (hcontext.symm.trans hsaved)
      refine .on f τ k _ ⟨hf, hd.last ▸ hlast, fun i hi => ?_, hcont, hd.current, ?_⟩ hτ hstack'
        (hstands.congr hfunc hd.last hd.exited)
      · exact (hbelow i hi).kept (by rw [htcb]) rfl
      · rw [htcb]
        exact hflag

/-- The top of the stack is no statement of an insertion. -/
theorem Stands.inserts {s : State} {place : Place} {x : Frame}
    (h : Stands n prio f s k place rest) (hx : x ∈ k.head?) : x.inserts = false := by
  cases h with
  | back _ hk =>
    have hall : ∀ k ∈ comeback f, ∀ x ∈ k.head?, x.inserts = false := by
      simp [comeback, returning, Frame.inserts]
    exact hall k hk x hx
  | joining _ hk =>
    simp only [List.mem_cons, List.not_mem_nil, or_false] at hk
    rcases hk with rfl | rfl | rfl <;>
      · cases hx
        rfl
  | _ =>
    cases hx
    rfl

theorem Shape.steady (h : Shape n prio w rest) : w.sys.Steady g AllQueues := by
  intro _ x below hstack hins _ _
  have hhead : x ∈ w.sys.stack.head? := by simp [hstack]
  have hfalse : x.inserts = false := by
    cases h with
    | on f τ k _ _ hτ hstack' hstands =>
      rw [hstack'] at hhead
      cases τ with
      | nil => exact hstands.inserts hhead
      | cons y τ =>
        cases hhead
        have htimer := hτ x (List.mem_cons_self ..)
        cases x <;> first | rfl | cases htimer
    | handing _ _ _ _ hstack' =>
      rw [hstack'] at hhead
      cases hhead
      rfl
    | off _ _ _ _ _ _ hstack' | empty _ hstack' =>
      rcases hstack' with hstack' | hstack' <;>
        · rw [hstack'] at hhead
          cases hhead
          rfl
  rw [hfalse] at hins
  cases hins

/-- A step of the timer's own code. -/
theorem Nested.timer {τ : List Frame} {x : Frame} (h : Nested n prio w)
    (hq : QueuesOk AllQueues w'.sys) (hleads : Leads n prio f w)
    (hτ : ∀ y ∈ x :: τ, y.isTimer = true) (hstack : w.sys.stack = x :: τ ++ k)
    (hstands : Stands n prio f w.sys k (w.threads (tidOf f)) rest)
    (hstep : w.step g (program n prio) .run = some w') : Follows n prio w w' rest := by
  obtain ⟨hx, hrest⟩ := List.forall_mem_cons.mp hτ
  have htop : x ≠ .user ∧ x ≠ .start ∧ ∀ func v p, x ≠ .enter (.tFork func v p) := by
    refine ⟨?_, ?_, fun func v p => ?_⟩ <;>
      · rintro rfl
        cases hx
  obtain ⟨s, hs, rfl⟩ := World.run_inside hstack htop.1 htop.2.1 htop.2.2 hstep
  cases x with
  | handler =>
    have hpark := parks_handler hstack hs
    exact .quiet hpark.waiting hpark.last rfl
      (interrupted_shape hpark h hq hleads hrest hstands)
  | resumed =>
    simp only [Threads.step, exec, hstack, List.cons_append, Option.some.injEq] at hs
    subst hs
    exact .quiet rfl rfl rfl (.on f (.handled :: τ) k rest (hleads.congr rfl rfl rfl rfl)
      (by simpa [Frame.isTimer] using hrest) rfl (hstands.congr rfl rfl rfl))
  | handled =>
    simp only [Threads.step, exec, hstack, List.cons_append, Option.some.injEq] at hs
    subst hs
    exact .quiet rfl rfl rfl (.on f τ k rest (hleads.congr rfl rfl rfl rfl) hrest rfl
      (hstands.congr rfl rfl rfl))
  | _ => cases hx

/-- A step of the thread that has the processor. -/
theorem Nested.runs (h : Nested n prio w) (hprio : Rising prio) (hpos : 0 ≤ prio 0)
    (hq : QueuesOk AllQueues w'.sys) (hleads : Leads n prio f w) (hstack : w.sys.stack = k)
    (hstands : Stands n prio f w.sys k (w.threads (tidOf f)) rest)
    (hstep : w.step g (program n prio) .run = some w') : Follows n prio w w' rest := by
  have hadvance : (∀ p, k ≠ [.enter (.tFork (f + 1) .null p), .user]) → k ≠ [.sitBottom] →
      Follows n prio w w' rest := by
    intro hfork hgone
    obtain ⟨k', words, rest', hrest, hadv⟩ :=
      hstands.step hstack rfl hleads.current h.waiting hleads.le hfork hgone hstep
    exact ⟨hadv.keeps.waiting, Or.inl hadv.keeps.last, words, rest', hrest, hadv.shared,
      hadv.shape hleads⟩
  generalize hplace : w.threads (tidOf f) = place at hstands
  cases hstands with
  | forking hlt hlast hpast =>
    have hlevel := h.level hleads.current hleads.last
    have hlevel' : 0 ≤ prio f := le_trans hpos (hprio.le (Nat.zero_le f))
    obtain ⟨s, hs, rfl⟩ := World.run_exec (by simp [hstack]) hstep
    have hforks : Forks w.sys s (f + 1) (prio (f + 1)) [.user] := by
      refine forks_higher hstack (by rw [hleads.current, hlast]) ?_ ?_ hs
      · rw [hlevel]
        omega
      · rw [hlevel]
        exact hprio f
    have hlaunch : (program n prio).launch w.sys w.threads =
        Function.update w.threads (tidOf (f + 1)) (.first (f + 1)) := by
      simp only [Program.launch, hstack, hlast, tidOf_succ]
      rfl
    refine ⟨hforks.waiting, Or.inr ⟨f, hlast, ?_, ?_⟩, [], _, rfl, (List.append_nil _).symm, ?_⟩
    · rw [hforks.last, hlast, tidOf_succ]
    · rw [hforks.tcb, hlast, tidOf_succ, Function.update_self]
    · rw [hlaunch]
      exact forked_shape hforks h hq hleads hlt hlast hpast hplace
  | gone hpast =>
    obtain ⟨s, hs, rfl⟩ := World.run_inside hstack (by simp) (by simp) (by simp) hstep
    simp only [Threads.step, exec, hstack, Option.some.injEq] at hs
    subst hs
    exact .quiet rfl rfl rfl (hleads.leave hpast)
  | back _ hk =>
    refine hadvance ?_ ?_
    · rintro p rfl
      simp [comeback, returning] at hk
    · rintro rfl
      simp [comeback, returning] at hk
  | joining _ hk =>
    refine hadvance ?_ ?_
    · rintro p rfl
      simp at hk
    · rintro rfl
      simp at hk
  | start | first | fork | join | ends | wake | leave => exact hadvance (by simp) (by simp)

variable {tick : Tick}

theorem Nested.follows (h : Nested n prio w) (hprio : Rising prio) (hpos : 0 ≤ prio 0)
    (hq : QueuesOk AllQueues w'.sys) (hshape : Shape n prio w rest)
    (hstep : w.step g (program n prio) tick = some w') : Follows n prio w w' rest := by
  cases tick with
  | expire =>
    simp only [World.step, Threads.step, Option.map_eq_some_iff] at hstep
    obtain ⟨s, hs, rfl⟩ := hstep
    split at hs
    · cases hs
    rename_i hoff
    cases hs
    cases hshape with
    | on f τ k _ hleads hτ hstack hstands =>
      exact .quiet rfl rfl rfl (.on f (.handler :: τ) k rest (hleads.congr rfl rfl rfl rfl)
        (by simpa [Frame.isTimer] using hτ) (congrArg (List.cons Frame.handler) hstack)
        (hstands.congr rfl rfl rfl))
    | handing _ _ _ _ _ hblocked | off _ _ _ _ _ _ _ hblocked | empty _ _ hblocked =>
      exact absurd (Or.inl hblocked) hoff
  | run =>
    cases hshape with
    | on f τ k _ hleads hτ hstack hstands =>
      cases τ with
      | nil => exact h.runs hprio hpos hq hleads hstack hstands hstep
      | cons x τ => exact h.timer hq hleads hτ hstack hstands hstep
    | handing f hf hbelow hcontents hstack hblocked hcur hflag hplace hnew =>
      obtain ⟨s, hs, rfl⟩ := World.run_inside hstack (by simp) (by simp) (by simp) hstep
      have hpark := parks_yield hstack hs
      exact .quiet hpark.waiting hpark.last rfl
        (yielded_shape hpark h hprio hq hf hbelow hcontents hcur hflag hplace hnew)
    | off f _ hf hlast hbelow hcontents hstack hblocked hrests =>
      rcases hstack with hstack | hstack
      · obtain ⟨s, hs, rfl⟩ := World.run_inside hstack (by simp) (by simp) (by simp) hstep
        simp only [Threads.step, exec, hstack, Option.some.injEq] at hs
        subst hs
        exact .quiet rfl rfl rfl (.off f rest hf hlast (fun i hi => (hbelow i hi).kept rfl rfl)
          hcontents (Or.inr rfl) rfl (hrests.congr rfl rfl rfl rfl))
      · obtain ⟨s, hs, rfl⟩ := World.run_inside hstack (by simp) (by simp) (by simp) hstep
        obtain ⟨hwaiting, hlast', hshape⟩ :=
          hrests.dispatch hprio h.queues hf hlast hbelow hcontents hstack hs
        exact .quiet hwaiting hlast' rfl hshape
    | empty hcontents hstack hblocked =>
      rcases hstack with hstack | hstack
      · obtain ⟨s, hs, rfl⟩ := World.run_inside hstack (by simp) (by simp) (by simp) hstep
        rcases step_sched h.queues hstack hs with
          ⟨hstack', hblocked', hsame, hwaiting, hlast, -⟩ | ⟨y, t, rest, hhead, -⟩
        · exact .quiet hwaiting hlast rfl
            (.empty (hsame.trans hcontents) (Or.inr hstack') hblocked')
        · rw [hcontents] at hhead
          cases hhead
      · obtain ⟨s, hs, rfl⟩ := World.run_inside hstack (by simp) (by simp) (by simp) hstep
        simp [Threads.step, exec, hstack] at hs

theorem Nested.step (h : Nested n prio w) (hprio : Rising prio) (hpos : 0 ≤ prio 0)
    (hstep : w.step g (program n prio) tick = some w') : Nested n prio w' := by
  obtain ⟨rest, hscript, hshape⟩ := h.shape
  have hkept : QueuesOk AllQueues w'.sys ∧
      ∀ t, t ≤ w.sys.gThreadID → (w'.sys.tcb t).priority = (w.sys.tcb t).priority := by
    rcases (World.goes hstep).sys with hsys | ⟨m, hmove, -⟩
    · rw [hsys]
      exact ⟨h.queues, fun _ _ => rfl⟩
    · exact ⟨(step_trans hmove).queuesOk h.queues hshape.steady,
        fun t ht => (step_trans hmove).priority ht⟩
  obtain ⟨hq, hpriority⟩ := hkept
  have hfollows := h.follows hprio hpos hq hshape hstep
  refine ⟨hq, fun i => hfollows.waiting ▸ h.waiting i, fun i hi => ?_, ?_⟩
  · by_cases hold : tidOf i ≤ w.sys.gThreadID
    · rw [hpriority _ hold]
      exact h.priority i hold
    · rcases hfollows.last with hlast | ⟨f, hlast, hlast', hnew⟩
      · exact absurd (hlast ▸ hi) hold
      · rw [hlast'] at hi
        rw [hlast] at hold
        rw [tidOf_le] at hi hold
        obtain rfl : i = f + 1 := by omega
        exact hnew
  · obtain ⟨words, rest', rfl, hshared, hnext⟩ := hfollows.shape
    refine ⟨rest', ?_, hnext⟩
    rw [hshared, List.append_assoc, hscript]

end Processor

section Progress

variable {g : Grain} {w : World (List Word) Place} {k : List Frame} {rest : List Word}

theorem World.isSome_exec (hstack : w.sys.stack ≠ [.user])
    (h : (exec g w.sys).isSome = true) : (w.step g (program n prio) .run).isSome = true := by
  simpa [World.step, hstack, Threads.step] using h

/-- What the thread with the processor does has a defined result, as its priority has a level
and the table of those that have ended has room for it. -/
theorem Stands.defined {place : Place} (h : Stands n prio f w.sys k place rest)
    (hstack : w.sys.stack = k) (hplace : w.threads (tidOf f) = place)
    (hcur : w.sys.currentRunningThread = tidOf f) (hq : QueuesOk AllQueues w.sys)
    (hpos : ∀ i ≤ n, 0 ≤ prio i ∧ prio i < 128) (hcap : n < w.sys.cap.exited) :
    (w.step g (program n prio) .run).isSome = true := by
  cases h with
  | start | leave | gone => exact World.isSome_exec (by simp [hstack]) (by simp [exec, hstack])
  | first | fork | join | ends =>
    simp [World.step, hstack, hcur, hplace, program, Threads.step]
  | forking hlt =>
    refine World.isSome_exec (by simp [hstack]) ?_
    simpa [exec, hstack, enter] using (tFork_isSome hq).mpr (hpos (f + 1) hlt)
  | back _ hk =>
    simp only [comeback, returning, List.cons_append, List.nil_append, List.mem_cons,
      List.not_mem_nil, or_false] at hk
    rcases hk with rfl | rfl | rfl | rfl | rfl
    iterate 4 exact World.isSome_exec (by simp [hstack]) (by simp [exec, hstack])
    simp [World.step, hstack, hcur, hplace, program]
  | joining _ hk =>
    simp only [List.mem_cons, List.not_mem_nil, or_false] at hk
    rcases hk with rfl | rfl | rfl
    iterate 2 exact World.isSome_exec (by simp [hstack]) (by simp [exec, hstack, enter])
    simp [World.step, hstack, hcur, hplace, program]
  | wake i hpast =>
    refine World.isSome_exec (by simp [hstack]) ?_
    have hroom : w.sys.exitedThreadIDs.length < w.sys.cap.exited := by
      rw [hpast.1]
      omega
    simp only [exec, hstack, Threads.wake]
    split
    · split <;> rfl
    · simp [hroom]

/-- The program is never stuck before `Scheduler` has returned. -/
theorem Nested.defined (h : Nested n prio w) (hpos : ∀ i ≤ n, 0 ≤ prio i ∧ prio i < 128)
    (hcap : n < w.sys.cap.exited) (hdone : w.sys.stack ≠ [.done]) :
    (w.step g (program n prio) .run).isSome = true := by
  obtain ⟨rest, -, hshape⟩ := h.shape
  have hexec : ∀ {f : Frame} {k : List Frame}, w.sys.stack = f :: k → f ≠ .user →
      (exec g w.sys).isSome = true → (w.step g (program n prio) .run).isSome = true :=
    fun hstack hf => World.isSome_exec (by simp [hstack, hf])
  have hsleep : ∀ {i}, Sleeps w i → (w.sys.tcb (tidOf i)).context ≠ none := by
    intro i hi
    simp [hi.context]
  cases hshape with
  | on f τ k _ hleads hτ hstack hstands =>
    cases τ with
    | nil => exact hstands.defined hstack rfl hleads.current h.queues hpos hcap
    | cons x τ =>
      have hx := hτ x (List.mem_cons_self ..)
      have hlevel := h.level hleads.current hleads.last
      cases x with
      | handler =>
        refine hexec hstack (by simp) ?_
        simpa [exec, hstack, hlevel] using
          (timerHandler_isSome (k := τ ++ k) h.queues).mpr (hlevel ▸ hpos f hleads.le)
      | resumed | handled => exact hexec hstack (by simp) (by simp [exec, hstack])
      | _ => cases hx
  | handing f hf hbelow hcontents hstack hblocked hcur hflag hplace hnew =>
    have hlevel := h.level hcur hnew.caller
    refine hexec hstack (by simp) ?_
    simpa [exec, hstack, enter] using
      (tYield_isSome (k := [.forked (tidOf (f + 1)), .user]) h.queues).mpr
        (hlevel ▸ hpos f (Nat.le_of_lt hf))
  | off f _ hf hlast hbelow hcontents hstack hblocked hrests =>
    rcases hstack with hstack | hstack
    · exact hexec hstack (by simp) (by simp [exec, hstack])
    · refine hexec hstack (by simp) ?_
      have hresumable : ∀ q, ∀ t ∈ w.sys.contents q,
          (w.sys.tcb t).flag = 1 ∨ (w.sys.tcb t).context ≠ none := by
        intro q t ht
        rw [hcontents] at ht
        obtain ⟨i, hi, rfl⟩ := mem_sleepers ht
        rcases Nat.lt_succ_iff_lt_or_eq.mp hi with hlt | rfl
        · exact Or.inr (hsleep (hbelow i hlt))
        · cases hrests with
          | new hnew => exact Or.inl hnew.flag
          | saved _ _ _ _ _ hcontext => exact Or.inr (by simp [hcontext])
      simpa [exec, hstack] using scheduler_isSome h.queues hresumable
  | empty hcontents hstack =>
    rcases hstack with hstack | hstack
    · refine hexec hstack (by simp) ?_
      have hnone : ∀ q, ∀ t ∈ w.sys.contents q,
          (w.sys.tcb t).flag = 1 ∨ (w.sys.tcb t).context ≠ none := by
        intro q t ht
        rw [hcontents] at ht
        cases ht
      simpa [exec, hstack] using scheduler_isSome h.queues hnone
    · exact absurd hstack hdone

end Progress

section Output

variable {g : Grain} {w₀ w : World (List Word) Place} {k : List Frame} {rest : List Word}
  {ok : Tick → World (List Word) Place → Prop}

theorem Starts.nested (h : Starts n prio w) : 0 ≤ prio 0 ∧ Nested n prio w := by
  obtain ⟨hopens, hprio⟩ := h
  have hq : QueuesOk AllQueues w.sys := hopens.hosted.calm.unjoined.queues
  obtain ⟨f, v, p, hb⟩ := hopens.initial.begun
  obtain ⟨cap, p', hsys, hshared, hthreads⟩ := hopens
  obtain ⟨a, hcalls, hstart⟩ := Option.bind_eq_some_iff.mp hsys
  have hprepared : Prepared a := ⟨cap, [], hcalls⟩
  obtain ⟨store, hslot, -, hspec⟩ := tStart_spec hprepared.created hstart
  have htcb : w.sys.tcb = Function.update a.tcb 1 { func := 0, priority := p', flag := 1 } := by
    rw [hspec]
  have hlevel : p' = prio 0 := by
    rw [← hprio, htcb, Function.update_self]
  have hlevel' : p = prio 0 := by
    rw [← hprio, hb.tcb, Function.update_self]
  have hblocked : w.sys.blocked = true := by rw [hspec]
  have hone : tidOf 0 = 1 := rfl
  have hpast : Past n (n + 1) w.sys := by
    refine ⟨by simp [hb.exited], fun i hi hn => ?_⟩
    omega
  refine ⟨hlevel ▸ (hasSlot_ready hslot).1, hq, fun i => by rw [hb.tcbWaiting], fun i hi => ?_,
    script n, by rw [hshared]; rfl, ?_⟩
  · rw [hb.gThreadID, ← hone, tidOf_le] at hi
    obtain rfl : i = 0 := Nat.le_zero.mp hi
    exact hprio
  · refine .off 0 (script n) (Nat.zero_le n) hb.gThreadID.symm.le (by simp) ?_ (Or.inr hb.stack)
      hblocked (.new ⟨?_, ?_, ?_, hb.gThreadID, hpast⟩)
    · rw [hb.contents hq, hlevel']
      rfl
    · rw [htcb, hone, Function.update_self]
    · rw [htcb, hone, Function.update_self]
    · rw [hthreads]
      rfl

theorem nested_of_run (hprio : Rising prio) (h₀ : Starts n prio w₀)
    (hrun : Run (World.step g (program n prio)) ok w₀ w) :
    Nested n prio w ∧ w.sys.cap = w₀.sys.cap := by
  obtain ⟨hpos, hnested⟩ := h₀.nested
  refine hrun.invariant (I := fun w => Nested n prio w ∧ w.sys.cap = w₀.sys.cap) ⟨hnested, rfl⟩
    fun tick a b hI _ hstep => ⟨hI.1.step hprio hpos hstep, ?_⟩
  rcases (World.goes hstep).sys with hsys | ⟨m, hmove, -⟩
  · exact hsys ▸ hI.2
  · exact (step_trans hmove).tables.1.trans hI.2

/-- Only a `t_fork` that returns answers a tid, and that is the tid of the next function. -/
theorem Stands.answers {s : State} {place : Place} {t : Tid}
    (h : Stands n prio f s k place rest) (ht : .ret (.int t) ∈ k) :
    place = .second f ∧ t = tidOf (f + 1) := by
  cases h with
  | back k hk =>
    have hall : ∀ k ∈ comeback f, .ret (.int t) ∈ k → t = tidOf (f + 1) := by
      simp [comeback, returning]
    exact ⟨rfl, hall k hk ht⟩
  | joining k hk =>
    simp only [List.mem_cons, List.not_mem_nil, or_false] at hk
    rcases hk with rfl | rfl | rfl <;> simp at ht
  | _ => simp at ht

theorem Stands.not_done {s : State} {place : Place} (h : Stands n prio f s k place rest) :
    k ≠ [.done] := by
  rintro rfl
  cases h with
  | back _ hk => simp [comeback, returning] at hk
  | joining _ hk => simp at hk

theorem Shape.answers {t : Tid} (h : Shape n prio w rest) (ht : .ret (.int t) ∈ w.sys.stack) :
    ∃ f, w.sys.currentRunningThread = tidOf f ∧ w.threads (tidOf f) = .second f ∧
      t = tidOf (f + 1) := by
  cases h with
  | on f τ k _ hleads hτ hstack hstands =>
    rw [hstack, List.mem_append] at ht
    rcases ht with ht | ht
    · cases hτ _ ht
    · exact ⟨f, hleads.current, hstands.answers ht⟩
  | handing _ _ _ _ hstack => simp [hstack] at ht
  | off _ _ _ _ _ _ hstack | empty _ hstack =>
    rcases hstack with hstack | hstack <;> simp [hstack] at ht

theorem Shape.ends (h : Shape n prio w rest) (hdone : w.sys.stack = [.done]) : rest = [] := by
  cases h with
  | on f τ k _ hleads hτ hstack hstands =>
    rw [hdone] at hstack
    cases τ with
    | nil => exact absurd hstack.symm hstands.not_done
    | cons x τ =>
      have hx := hτ x (List.mem_cons_self ..)
      rw [← (List.cons.inj hstack).1] at hx
      cases hx
  | handing _ _ _ _ hstack => simp [hstack] at hdone
  | off _ _ _ _ _ _ hstack => rcases hstack with hstack | hstack <;> simp [hstack] at hdone
  | empty => rfl

/-- If the timer never fires in the epilogue of `incrementStack`, the words come in the order of
nested calls, and all of them have come when `Scheduler` has returned. With a level for each priority and room for those that
have ended, no statement before that is without a defined result. What a `t_fork` answers is
the tid that its caller joins, and nobody ever waits in `t_join`. -/
theorem words_nested (hprio : Rising prio) (h₀ : Starts n prio w₀)
    (hrun : Run (World.step g (program n prio)) SparesEpilogue w₀ w) :
    w.shared <+: script n ∧ (w.sys.stack = [.done] → w.shared = script n) ∧
      (prio n < 128 → n < w₀.sys.cap.exited → w.sys.stack ≠ [.done] →
        (w.step g (program n prio) .run).isSome = true) ∧
      (∀ t, .ret (.int t) ∈ w.sys.stack → ∃ f, w.sys.currentRunningThread = tidOf f ∧
        w.threads (tidOf f) = .second f ∧ t = tidOf (f + 1)) ∧
      ∀ i, w.sys.tcbWaiting i = none := by
  obtain ⟨hpos, -⟩ := h₀.nested
  obtain ⟨hnested, hcap⟩ := nested_of_run hprio h₀ hrun
  obtain ⟨rest, hscript, hshape⟩ := hnested.shape
  refine ⟨⟨rest, hscript⟩, fun hdone => ?_, fun hmax hroom => ?_, fun t => hshape.answers,
    hnested.waiting⟩
  · rwa [hshape.ends hdone, List.append_nil] at hscript
  · refine hnested.defined (fun i hi => ⟨?_, ?_⟩) (hcap ▸ hroom)
    · exact le_trans hpos (hprio.le (Nat.zero_le i))
    · exact lt_of_le_of_lt (hprio.le hi) hmax

/-- `funcC` is interrupted before it prints, and the program goes on to its end. -/
theorem words_nested_test1 :
    ∃ w₀ w : World (List Word) Place, Starts 2 (fun f => 10 * f) w₀ ∧ w.sys.stack = [.done] ∧
      w.shared = [.first 0, .first 1, .first 2, .second 1, .third 1, .second 0, .third 0] := by
  obtain ⟨w₀, w, h₀, hrun, hgood⟩ := exists_opened .statement SparesEpilogue
    (program 2 fun f => 10 * f) [] [] 0
    (List.replicate 14 .run ++ [.expire] ++ List.replicate 189 .run)
    (fun w => w.sys.stack = [.done]) (by decide +kernel)
  have hdone := of_decide_eq_true hgood
  have hrising : Rising fun f : ℕ => (10 * f : ℤ) := by
    intro f
    simp
  exact ⟨w₀, w, h₀, hdone, (words_nested hrising h₀ hrun).2.1 hdone⟩

end Output

end UserThreads.NestedForks
