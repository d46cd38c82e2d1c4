import UserThreads.Turns

/-!
Nested calls of `t_fork` and `t_join` (`TEST1.C`). Each thread but the last prints a word,
forks the next one at a higher priority, prints a word, joins that thread and prints a third
word. As the new thread has the highest priority of all it runs at once and to its end,
whenever the timer fires, so the words come in the order of nested procedure calls.
-/
namespace UserThreads.NestedForks

open Threads LinkedCells Queue Runs MultilevelQueue

/-- What the thread with the function `f` prints: `fee`, `foe` and `fun` with `funcA`, which is
0, `foo`, `far` and `fum` with `funcB`, and only `fie` with `funcC`. -/
inductive Word
  | first (f : ℕ)
  | second (f : ℕ)
  | third (f : ℕ)
deriving DecidableEq

/-- A place stands before the statement it is named after. -/
inductive Place
  | first (f : ℕ)
  | fork (f : ℕ)
  | second (f : ℕ)
  | join (f : ℕ)
  | third (f : ℕ)
  | ends
deriving DecidableEq

/-- The tid of the thread with the function `f`. -/
def tidOf (f : ℕ) : Tid := f + 1

/-- The functions are 0 to `n`, and `prio f` is the priority with which `f` is forked. In the
source `n` is 2 and the priorities are 0, 10 and 20. The tid that a thread joins is the one
that `t_fork` has answered. -/
def program (n : ℕ) (prio : ℕ → ℤ) : Program (List Word) Place where
  body f _ := .first f
  code printed
    | .first f => .act (printed ++ [.first f]) (if f < n then .fork f else .ends)
    | .fork f => .call (.tFork (f + 1) .null (prio (f + 1))) (.second f)
    | .second f => .act (printed ++ [.second f]) (.join f)
    | .join f => .call (.tJoin (tidOf (f + 1))) (.third f)
    | .third f => .act (printed ++ [.third f]) .ends
    | .ends => .ret

/-- `main` starts the thread with function 0. -/
def Starts (n : ℕ) (prio : ℕ → ℤ) (w : World (List Word) Place) : Prop :=
  World.Opens (program n prio) [] [] w ∧ (w.sys.tcb 1).priority = prio 0

/-- Each function is forked at a higher priority than the one before. -/
def Rising (prio : ℕ → ℤ) : Prop := ∀ f, prio f < prio (f + 1)

/-- The words after the calls that return, the innermost first. -/
def ascent : ℕ → List Word
  | 0 => []
  | f + 1 => .second f :: .third f :: ascent f

/-- The words from the first one of function `f` on. -/
def coming (n f : ℕ) : List Word := (List.range' f (n + 1 - f)).map .first ++ ascent n

/-- What nested calls print. -/
def script (n : ℕ) : List Word := coming n 0

example : script 2 = [.first 0, .first 1, .first 2, .second 1, .third 1, .second 0, .third 0] :=
  rfl

variable {n f : ℕ} {prio : ℕ → ℤ}

theorem coming_first (hf : f ≤ n) : coming n f = .first f :: coming n (f + 1) := by
  rw [coming, coming, show n + 1 - f = (n + 1 - (f + 1)) + 1 by omega, List.range'_succ]
  rfl

theorem coming_last : coming n (n + 1) = ascent n := by
  simp [coming]

theorem Rising.lt (h : Rising prio) {i j : ℕ} (hij : i < j) : prio i < prio j := by
  induction hij with
  | refl => exact h i
  | step _ ih => exact Int.lt_trans ih (h _)

theorem Rising.le (h : Rising prio) {i j : ℕ} (hij : i ≤ j) : prio i ≤ prio j := by
  rcases Nat.lt_or_eq_of_le hij with hlt | rfl
  · exact Int.le_of_lt (h.lt hlt)
  · exact Int.le_refl _

theorem tidOf_inj {i j : ℕ} : tidOf i = tidOf j ↔ i = j := by
  simp [tidOf]

theorem tidOf_le {i j : ℕ} : tidOf i ≤ tidOf j ↔ i ≤ j := by
  simp [tidOf]

theorem tidOf_succ (i : ℕ) : tidOf (i + 1) = tidOf i + 1 := by
  simp [tidOf]

section Sleepers

variable {q : QRef}

/-- The threads with the functions below `f`, each at its level. -/
def sleepers (prio : ℕ → ℤ) : ℕ → Levels QRef Tid
  | 0 => fun _ => []
  | f + 1 => (sleepers prio f).append (.ready (prio f)) (tidOf f)

theorem sleepers_ne_nil (h : sleepers prio f q ≠ []) : ∃ i < f, q = .ready (prio i) := by
  induction f with
  | zero => exact absurd rfl h
  | succ f ih =>
    by_cases hq : q = .ready (prio f)
    · exact ⟨f, Nat.lt_succ_self f, hq⟩
    · rw [sleepers, Levels.append, Levels.set_of_ne hq] at h
      obtain ⟨i, hi, hqi⟩ := ih h
      exact ⟨i, Nat.lt_succ_of_lt hi, hqi⟩

theorem mem_sleepers {t : Tid} (h : t ∈ sleepers prio f q) : ∃ i < f, t = tidOf i := by
  induction f with
  | zero => cases h
  | succ f ih =>
    by_cases hq : q = .ready (prio f)
    · rw [hq, sleepers, Levels.append, Levels.set_self, List.mem_append] at h
      rcases h with h | h
      · obtain ⟨i, hi, rfl⟩ := ih (hq ▸ h)
        exact ⟨i, Nat.lt_succ_of_lt hi, rfl⟩
      · exact ⟨f, Nat.lt_succ_self f, List.mem_singleton.mp h⟩
    · rw [sleepers, Levels.append, Levels.set_of_ne hq] at h
      obtain ⟨i, hi, rfl⟩ := ih h
      exact ⟨i, Nat.lt_succ_of_lt hi, rfl⟩

theorem sleepers_new (hprio : Rising prio) (f : ℕ) :
    sleepers prio f (.ready (prio f)) = [] := by
  by_contra hne
  obtain ⟨i, hi, hq⟩ := sleepers_ne_nil hne
  simp only [QRef.ready.injEq] at hq
  exact absurd hq (Int.ne_of_gt (hprio.lt hi))

theorem sleepers_top (hprio : Rising prio) (f : ℕ) :
    sleepers prio (f + 1) (.ready (prio f)) = [tidOf f] := by
  rw [sleepers, Levels.append, Levels.set_self, sleepers_new hprio]
  rfl

/-- Who is taken from the highest level is the thread forked last. -/
theorem sleepers_take (hprio : Rising prio) {y : ℤ} {t : Tid} {rest : List Tid}
    (hhead : sleepers prio (f + 1) (.ready y) = t :: rest)
    (hhigh : ∀ p, y < p → sleepers prio (f + 1) (.ready p) = []) :
    t = tidOf f ∧ Levels.set (sleepers prio (f + 1)) (.ready y) rest = sleepers prio f := by
  obtain ⟨i, hi, hq⟩ := sleepers_ne_nil (by rw [hhead]; exact List.cons_ne_nil t rest)
  simp only [QRef.ready.injEq] at hq
  have htop := sleepers_top hprio f
  have hy : y = prio f := by
    rcases Nat.lt_succ_iff_lt_or_eq.mp hi with hlt | rfl
    · rw [hhigh _ (hq ▸ hprio.lt hlt)] at htop
      cases htop
    · exact hq
  subst hy
  rw [htop] at hhead
  cases hhead
  refine ⟨rfl, funext fun q => ?_⟩
  by_cases hqf : q = .ready (prio f)
  · rw [hqf, Levels.set_self, sleepers_new hprio]
  · rw [Levels.set_of_ne hqf, sleepers, Levels.append, Levels.set_of_ne hqf]

end Sleepers

section Running

/-- The threads with the functions from `f` on have ended and been recorded. -/
def Past (n f : ℕ) (s : State) : Prop :=
  s.exitedThreadIDs.length = n + 1 - f ∧ ∀ i, f ≤ i → i ≤ n → tidOf i ∈ s.exitedThreadIDs

/-- Where a `t_fork` that has yielded is when the new thread has ended, until it returns. -/
def comeback (f : ℕ) : List (List Frame) := returning (tidOf (f + 1)) ++ [[.user]]

/-- Where the thread with the function `f` is, the frames of the timer left out: its program
points, its place and the words that are still to come. -/
inductive Stands (n : ℕ) (prio : ℕ → ℤ) (f : ℕ) (s : State) :
    List Frame → Place → List Word → Prop
  | start (hfunc : s.userFunction = f) (hlast : s.gThreadID = tidOf f)
      (hpast : Past n (n + 1) s) : Stands n prio f s [.start] (.first f) (coming n f)
  | first (hlast : s.gThreadID = tidOf f) (hpast : Past n (n + 1) s) :
      Stands n prio f s [.user] (.first f) (coming n f)
  | fork (hlt : f < n) (hlast : s.gThreadID = tidOf f) (hpast : Past n (n + 1) s) :
      Stands n prio f s [.user] (.fork f) (coming n (f + 1))
  | forking (hlt : f < n) (hlast : s.gThreadID = tidOf f) (hpast : Past n (n + 1) s) :
      Stands n prio f s [.enter (.tFork (f + 1) .null (prio (f + 1))), .user] (.second f)
        (coming n (f + 1))
  | back (k : List Frame) (hk : k ∈ comeback f) (hlt : f < n) (hpast : Past n (f + 1) s) :
      Stands n prio f s k (.second f) (ascent (f + 1))
  | join (hlt : f < n) (hpast : Past n (f + 1) s) :
      Stands n prio f s [.user] (.join f) (.third f :: ascent f)
  | joining (k : List Frame) (hk : k ∈ [[.enter (.tJoin (tidOf (f + 1))), .user],
      [.ret .void, .user], [.user]]) (hlt : f < n) (hpast : Past n (f + 1) s) :
      Stands n prio f s k (.third f) (.third f :: ascent f)
  | ends (hpast : Past n (f + 1) s) : Stands n prio f s [.user] .ends (ascent f)
  | wake (i : ℕ) (hpast : Past n (f + 1) s) : Stands n prio f s [.wake i false] .ends (ascent f)
  | leave (hpast : Past n f s) : Stands n prio f s [.leave] .ends (ascent f)
  | gone (hpast : Past n f s) : Stands n prio f s [.sitBottom] .ends (ascent f)

/-- What a thread leaves as it is while it keeps the processor. -/
structure Keeps (s s' : State) : Prop where
  contents : s'.contents = s.contents
  current : s'.currentRunningThread = s.currentRunningThread
  last : s'.gThreadID = s.gThreadID
  waiting : s'.tcbWaiting = s.tcbWaiting
  flag : ∀ t, (s'.tcb t).flag = (s.tcb t).flag
  others : ∀ t, t ≠ s.currentRunningThread → s'.tcb t = s.tcb t

/-- The thread with the function `f` has printed the words and come to stand where it is. -/
structure Advances (n : ℕ) (prio : ℕ → ℤ) (f : ℕ) (w w' : World (List Word) Place)
    (k : List Frame) (words rest : List Word) : Prop where
  stack : w'.sys.stack = k
  shared : w'.shared = w.shared ++ words
  others : ∀ t, t ≠ tidOf f → w'.threads t = w.threads t
  keeps : Keeps w.sys w'.sys
  stands : Stands n prio f w'.sys k (w'.threads (tidOf f)) rest

variable {g : Grain} {w w' : World (List Word) Place} {s s' : State} {k : List Frame}
  {place : Place} {rest : List Word} {t : Tid}

theorem Keeps.same (hcontents : s'.contents = s.contents)
    (hcur : s'.currentRunningThread = s.currentRunningThread) (hlast : s'.gThreadID = s.gThreadID)
    (hwaiting : s'.tcbWaiting = s.tcbWaiting) (htcb : s'.tcb = s.tcb) : Keeps s s' :=
  ⟨hcontents, hcur, hlast, hwaiting, fun t => by simp [htcb], fun t _ => by rw [htcb]⟩

/-- Where a thread stands depends on three variables of the library. -/
theorem Stands.congr (h : Stands n prio f s k place rest)
    (hfunc : s'.userFunction = s.userFunction) (hlast : s'.gThreadID = s.gThreadID)
    (hexited : s'.exitedThreadIDs = s.exitedThreadIDs) : Stands n prio f s' k place rest := by
  have hpast : ∀ {i}, Past n i s → Past n i s' := by
    intro i hi
    rwa [Past, hexited]
  cases h with
  | start hf hl hp => exact .start (hfunc.trans hf) (hlast.trans hl) (hpast hp)
  | first hl hp => exact .first (hlast.trans hl) (hpast hp)
  | fork hlt hl hp => exact .fork hlt (hlast.trans hl) (hpast hp)
  | forking hlt hl hp => exact .forking hlt (hlast.trans hl) (hpast hp)
  | back k hk hlt hp => exact .back k hk hlt (hpast hp)
  | join hlt hp => exact .join hlt (hpast hp)
  | joining k hk hlt hp => exact .joining k hk hlt (hpast hp)
  | ends hp => exact .ends (hpast hp)
  | wake i hp => exact .wake i (hpast hp)
  | leave hp => exact .leave (hpast hp)
  | gone hp => exact .gone (hpast hp)

/-- A statement of the thread's own. -/
theorem Advances.act {printed : List Word} {next : Place} {words : List Word}
    (hstack : w.sys.stack = [.user]) (hcur : w.sys.currentRunningThread = tidOf f)
    (hplace : w.threads (tidOf f) = place)
    (hcode : (program n prio).code w.shared place = .act printed next)
    (hwords : printed = w.shared ++ words) (hnext : Stands n prio f w.sys [.user] next rest)
    (h : w.step g (program n prio) .run = some w') :
    Advances n prio f w w' [.user] words rest := by
  simp only [World.step, hstack, if_true, hcur, hplace, hcode, Option.some.injEq] at h
  subst h
  refine ⟨hstack, hwords, fun t ht => Function.update_of_ne ht .., ?_, ?_⟩
  · exact .same rfl rfl rfl rfl rfl
  · simpa using hnext

theorem Advances.call {op : Op} {next : Place} (hstack : w.sys.stack = [.user])
    (hcur : w.sys.currentRunningThread = tidOf f) (hplace : w.threads (tidOf f) = place)
    (hcode : (program n prio).code w.shared place = .call op next)
    (hnext : Stands n prio f w.sys [.enter op, .user] next rest)
    (h : w.step g (program n prio) .run = some w') :
    Advances n prio f w w' [.enter op, .user] [] rest := by
  simp only [World.step, hstack, if_true, hcur, hplace, hcode, Threads.step, Option.map_some,
    Option.some.injEq] at h
  subst h
  refine ⟨rfl, (List.append_nil _).symm, fun t ht => Function.update_of_ne ht .., ?_, ?_⟩
  · exact .same rfl rfl rfl rfl rfl
  · have hnext : Stands n prio f (w.sys.goto [.enter op, .user]) [.enter op, .user] next rest :=
      hnext.congr rfl rfl rfl
    simpa using hnext

/-- A step inside the library that changes no variable of it. -/
theorem Advances.exec {top : Frame} {below : List Frame} (b : Bool) (es : List Event)
    (hstack : w.sys.stack = top :: below)
    (htop : top ≠ .user ∧ top ≠ .start ∧ ∀ func v p, top ≠ .enter (.tFork func v p))
    (hplace : w.threads (tidOf f) = place)
    (hexec : Threads.exec g w.sys =
      some { w.sys with stack := k, blocked := b, hist := es ++ w.sys.hist })
    (hnext : Stands n prio f w.sys k place rest)
    (h : w.step g (program n prio) .run = some w') : Advances n prio f w w' k [] rest := by
  obtain ⟨huser, hstart, hfork⟩ := htop
  obtain ⟨s, hs, rfl⟩ := World.run_inside hstack huser hstart hfork h
  cases hexec.symm.trans hs
  exact ⟨rfl, (List.append_nil _).symm, fun _ _ => rfl,
    .same rfl rfl rfl rfl rfl,
    hplace.symm ▸ hnext.congr rfl rfl rfl⟩

/-- As the loop that wakes joiners finds none, the thread is recorded. -/
theorem Stands.wake_step {i : ℕ} (hstack : s.stack = [.wake i false])
    (hcur : s.currentRunningThread = tidOf f) (hwaiting : ∀ i, s.tcbWaiting i = none)
    (hf : f ≤ n) (hpast : Past n (f + 1) s) (hstep : Threads.step g .exec s = some s') :
    ∃ k, s'.stack = k ∧ Keeps s s' ∧ Stands n prio f s' k .ends (ascent f) := by
  have htarget : joinTarget s i = 0 := by simp [joinTarget, hwaiting]
  simp only [Threads.step, Threads.exec, hstack, Threads.wake, htarget, Option.bind_eq_bind] at hstep
  split at hstep
  · cases hstep
    refine ⟨_, rfl, .same rfl rfl rfl rfl rfl, ?_⟩
    exact .wake (i + 1) hpast
  · simp only [Bool.false_eq_true, if_false, Option.bind_eq_some_iff, Option.some.injEq] at hstep
    obtain ⟨_, -, rfl⟩ := hstep
    refine ⟨_, rfl, .same rfl rfl rfl rfl rfl, .leave ⟨?_, ?_⟩⟩
    · simp only [List.length_append, hpast.1, List.length_singleton]
      omega
    · intro j hj hn
      rcases Nat.lt_or_eq_of_le hj with hlt | rfl
      · exact List.mem_append_left _ (hpast.2 j hlt hn)
      · exact List.mem_append_right _ (List.mem_singleton.mpr hcur.symm)

/-- A step of the thread that has the processor, the one that forks and the one that leaves
the processor excepted. -/
theorem Stands.step (h : Stands n prio f w.sys k place rest) (hstack : w.sys.stack = k)
    (hplace : w.threads (tidOf f) = place) (hcur : w.sys.currentRunningThread = tidOf f)
    (hwaiting : ∀ i, w.sys.tcbWaiting i = none) (hf : f ≤ n)
    (hfork : ∀ p, k ≠ [.enter (.tFork (f + 1) .null p), .user]) (hgone : k ≠ [.sitBottom])
    (hstep : w.step g (program n prio) .run = some w') :
    ∃ k' words rest', rest = words ++ rest' ∧ Advances n prio f w w' k' words rest' := by
  cases h with
  | start hfunc hlast hpast =>
    obtain ⟨s, hs, rfl⟩ := World.run_exec (by simp [hstack]) hstep
    cases step_start hstack hs
    refine ⟨_, [], _, rfl, rfl, (List.append_nil _).symm, fun t ht => ?_, ?_, ?_⟩
    · simp only [Program.launch, hstack, hcur]
      exact Function.update_of_ne ht ..
    · exact .same rfl rfl rfl rfl rfl
    · simp only [Program.launch, hstack, hcur, Function.update_self, hfunc]
      exact .first hlast hpast
  | first hlast hpast =>
    rcases Nat.lt_or_eq_of_le hf with hlt | rfl
    · exact ⟨_, [.first f], coming n (f + 1), coming_first hf,
        .act hstack hcur hplace (by simp [program, hlt]) rfl (.fork hlt hlast hpast) hstep⟩
    · have hcode : (program f prio).code w.shared (.first f) =
          .act (w.shared ++ [.first f]) .ends := by simp [program]
      refine ⟨_, [.first f], coming f (f + 1), coming_first hf,
        .act hstack hcur hplace hcode rfl ?_ hstep⟩
      rw [coming_last]
      exact .ends hpast
  | fork hlt hlast hpast =>
    exact ⟨_, [], _, rfl, .call hstack hcur hplace rfl (.forking hlt hlast hpast) hstep⟩
  | forking => exact absurd rfl (hfork _)
  | back k hk hlt hpast =>
    simp only [comeback, returning, List.cons_append, List.nil_append, List.mem_cons,
      List.not_mem_nil, or_false] at hk
    have hnext : ∀ k ∈ comeback f, Stands n prio f w.sys k (.second f) (ascent (f + 1)) :=
      fun k hk => .back k hk hlt hpast
    rcases hk with rfl | rfl | rfl | rfl | rfl
    · exact ⟨[.ret .void, .forked (tidOf (f + 1)), .user], [], _, rfl,
        .exec false [] hstack (by simp) hplace (by rw [Threads.exec, hstack]; rfl)
          (hnext _ (by simp [comeback, returning])) hstep⟩
    · exact ⟨[.forked (tidOf (f + 1)), .user], [], _, rfl,
        .exec w.sys.blocked [] hstack (by simp) hplace (by rw [Threads.exec, hstack]; rfl)
          (hnext _ (by simp [comeback, returning])) hstep⟩
    · exact ⟨[.ret (.int (tidOf (f + 1))), .user], [], _, rfl,
        .exec false [] hstack (by simp) hplace (by rw [Threads.exec, hstack]; rfl)
          (hnext _ (by simp [comeback, returning])) hstep⟩
    · exact ⟨[.user], [], _, rfl,
        .exec w.sys.blocked [] hstack (by simp) hplace (by rw [Threads.exec, hstack]; rfl)
          (hnext _ (by simp [comeback, returning])) hstep⟩
    · exact ⟨_, [.second f], _, rfl,
        .act hstack hcur hplace rfl rfl (.join hlt hpast) hstep⟩
  | join hlt hpast =>
    exact ⟨_, [], _, rfl, .call hstack hcur hplace rfl
      (.joining _ (by simp) hlt hpast) hstep⟩
  | joining k hk hlt hpast =>
    have hnext : ∀ k ∈ [[.ret .void, .user], [.user]],
        Stands n prio f w.sys k (.third f) (.third f :: ascent f) :=
      fun k hk => .joining k (List.mem_cons_of_mem _ hk) hlt hpast
    simp only [List.mem_cons, List.not_mem_nil, or_false] at hk
    rcases hk with rfl | rfl | rfl
    · have hexited : tidOf (f + 1) ∈ w.sys.exitedThreadIDs := hpast.2 (f + 1) le_rfl hlt
      refine ⟨[.ret .void, .user], [], _, rfl, .exec false
        [.joined (tidOf f) (tidOf (f + 1))] hstack (by simp) hplace ?_ (hnext _ (by simp)) hstep⟩
      rw [Threads.exec, hstack]
      simp [enter, tJoin, State.disableTimer, State.enableTimer, State.log, State.goto, hexited,
        hcur]
    · exact ⟨[.user], [], _, rfl, .exec w.sys.blocked [] hstack (by simp) hplace
        (by rw [Threads.exec, hstack]; rfl) (hnext _ (by simp)) hstep⟩
    · exact ⟨_, [.third f], ascent f, rfl,
        .act hstack hcur hplace rfl rfl (.ends hpast) hstep⟩
  | ends hpast =>
    simp only [World.step, hstack, if_true, hcur, hplace, program, Threads.step,
      Option.map_some, Option.some.injEq] at hstep
    subst hstep
    refine ⟨[.wake 0 false], [], _, rfl, rfl, (List.append_nil _).symm, fun _ _ => rfl,
      .same rfl rfl rfl rfl rfl, ?_⟩
    rw [hplace]
    exact .wake 0 hpast
  | wake i hpast =>
    obtain ⟨s, hs, rfl⟩ := World.run_inside hstack (by simp) (by simp) (by simp) hstep
    obtain ⟨k, hk, hkept, hnext⟩ := Stands.wake_step hstack hcur hwaiting hf hpast hs
    exact ⟨k, [], _, rfl, hk, (List.append_nil _).symm, fun _ _ => rfl, hkept, hplace ▸ hnext⟩
  | leave hpast =>
    obtain ⟨s, hs, rfl⟩ := World.run_inside hstack (by simp) (by simp) (by simp) hstep
    simp only [Threads.step, Threads.exec, hstack, Option.some.injEq] at hs
    subst hs
    refine ⟨[.sitBottom], [], ascent f, rfl, rfl, (List.append_nil _).symm, fun _ _ => rfl, ?_,
      hplace ▸ .gone hpast⟩
    refine ⟨rfl, rfl, rfl, rfl, fun t => ?_, fun t ht => Function.update_of_ne ht ..⟩
    by_cases ht : t = w.sys.currentRunningThread
    · subst ht
      simp [abandon, State.setTcb, State.goto, State.current]
    · simp [abandon, State.setTcb, State.goto, ht]
  | gone => exact absurd rfl hgone

end Running

end UserThreads.NestedForks
