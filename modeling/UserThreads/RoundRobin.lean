import UserThreads.JoinFree

/-!
Round robin within a level. While a thread stays in a ready queue, what is
dispatched from its level are threads that stand ahead of it, each once, and
nothing is dispatched from a lower level. So its turn comes when those ahead of it
have had theirs, whatever is inserted behind it in the meantime.
-/
namespace UserThreads.Threads

open LinkedCells Queue Runs MultilevelQueue

/-- The threads that `Scheduler` has dispatched from the level `p`, the first one
first. Nothing else removes from a ready queue. -/
def dispatched (p : ℤ) (es : List Event) : List Tid := removedAt (.ready p) es

variable {g : Grain} {s s' s₀ u : State} {m : Move} {t : Tid} {p q : ℤ} {es : List Event}

theorem dispatched_append {hist : List Event} :
    dispatched p (es ++ hist) = dispatched p hist ++ dispatched p es := removedAt_append

/-- A dispatch takes the first thread of its level and finds the levels above empty. -/
theorem Shift.dispatched (h : Shift s s') (q : ℤ) :
    dispatched q s'.hist = dispatched q s.hist ∨
      ∀ p, q < p → s.contents (.ready p) = [] := by
  cases h with
  | keep _ _ hremoved | fork _ _ _ _ _ _ _ _ hremoved => exact Or.inl (hremoved _)
  | suspend _ _ _ _ _ _ _ hhist =>
    left
    rw [Threads.dispatched, hhist]
    rfl
  | wake r p t rest _ hr _ _ _ _ _ hhist =>
    left
    rw [Threads.dispatched, hhist]
    exact if_neg (hr q)
  | dispatch y t rest _ _ _ hhigh _ _ _ hremoved =>
    by_cases hy : y = q
    · exact Or.inr (hy ▸ hhigh)
    · left
      exact (hremoved _).trans (if_neg (by simpa using hy))

/-- As long as a thread stays at its level nothing is dispatched from a lower one. -/
theorem no_lower_dispatch (hs : Unjoined s) (ht : t ∈ s.contents (.ready p))
    (hrun : Run (step g) NoJoins s u) :
    Unjoined u ∧ ∃ es, u.hist = es ++ s.hist ∧
      (t ∉ dispatched p es → ∀ q < p, dispatched q es = []) := by
  refine hrun.invariant (I := fun u => Unjoined u ∧ ∃ es, u.hist = es ++ s.hist ∧
    (t ∉ dispatched p es → ∀ q < p, dispatched q es = [])) ⟨hs, [], rfl, fun _ _ _ => rfl⟩ ?_
  intro m a b ha hm hstep
  obtain ⟨ha, es, hes, hnone⟩ := ha
  have htrans := step_trans hstep
  obtain ⟨new, hnew⟩ := htrans.grows
  refine ⟨htrans.unjoined hm ha, new ++ es, by rw [hnew, hes, List.append_assoc], ?_⟩
  intro hnot q hq
  rw [dispatched_append, List.mem_append, not_or] at hnot
  rw [dispatched_append, hnone hnot.1 q hq, List.nil_append]
  have hstays : t ∈ a.contents (.ready p) := hs.queues.stays ha.queues trivial hes ht hnot.1
  rcases (ha.shift htrans).dispatched q with hsame | hempty
  · rw [hnew, dispatched_append] at hsame
    exact List.append_right_eq_self.mp hsame
  · rw [hempty p hq] at hstays
    cases hstays

/-- Without `t_join`, a thread queued behind `xs` is dispatched right after the
threads of `xs`, each of which is dispatched once, and until then nothing is
dispatched from a lower level. -/
theorem round_robin {xs ys : List Tid} (h₀ : Initial s₀) (hrun : Run (step g) NoJoins s₀ s)
    (hqueue : s.contents (.ready p) = xs ++ t :: ys) (hlater : Run (step g) NoJoins s u) :
    ∃ es, u.hist = es ++ s.hist ∧
      (t ∉ dispatched p es → dispatched p es <+: xs ∧ (dispatched p es).Nodup ∧
        t ∈ u.contents (.ready p) ∧ ∀ q < p, dispatched q es = []) ∧
      (xs.length < (dispatched p es).length → t ∈ dispatched p es) ∧
      (t ∈ dispatched p es → xs ++ [t] <+: dispatched p es) := by
  have hs := unjoined_of_run h₀ hrun
  have ht : t ∈ s.contents (.ready p) := by simp [hqueue]
  obtain ⟨hu, es, hes, hlower⟩ := no_lower_dispatch hs ht hlater
  have hnodup := hs.standing.nodup (.ready p)
  have hfifo := hs.queues.fifo hu.queues (q := .ready p) trivial hes
  rw [hqueue] at hnodup hfifo
  rw [List.append_assoc, List.cons_append] at hfifo
  have hahead : t ∉ xs := fun hmem =>
    (List.nodup_append.mp hnodup).2.2 t hmem t (List.mem_cons_self ..) rfl
  obtain ⟨hout, hturn, horder⟩ := fifo_ahead hfifo hahead
  refine ⟨es, hes, fun hnot => ?_, hturn, horder⟩
  obtain ⟨hinit, hstays⟩ := hout hnot
  exact ⟨hinit, (hnodup.of_append_left).sublist hinit.sublist, hstays, hlower hnot⟩

/-- Two threads of the same priority, and the one behind has its turn. -/
theorem round_robin_second :
    ∃ (s₀ s u : State) (es : List Event), Initial s₀ ∧ Run (step .statement) NoJoins s₀ s ∧
      s.contents (.ready 1) = [2, 3] ∧ u.hist = es ++ s.hist ∧ 3 ∈ dispatched 1 es ∧
      (3 ∈ dispatched 1 es → [2] ++ [3] <+: dispatched 1 es) := by
  obtain ⟨s₀, s, h₀, hrun, hgood⟩ := exists_run .statement NoJoins [] 1
    [.exec, .exec, .call (.tFork 0 .null 1), .exec, .exec, .call (.tFork 0 .null 1), .exec, .exec]
    (fun s => s.contents (.ready 1) = [2] ++ [3] && (play (step .statement) NoJoins
      [.call .tYield, .exec, .exec, .exec, .call .tYield, .exec, .exec] s).any fun u =>
        (dispatched 1 u.hist).length = (dispatched 1 s.hist).length + 2) (by decide +kernel)
  simp only [Bool.and_eq_true, decide_eq_true_eq, Option.any_eq_true] at hgood
  obtain ⟨hqueue, u, hplay, hcount⟩ := hgood
  obtain ⟨l, hpath, hl⟩ := path_of_play hplay
  obtain ⟨es, hes, -, hturn, horder⟩ := round_robin h₀ hrun hqueue (hpath.run hl)
  refine ⟨s₀, s, u, es, h₀, hrun, hqueue, hes, hturn ?_, horder⟩
  rw [hes, dispatched_append, List.length_append] at hcount
  rw [Nat.add_left_cancel hcount]
  decide

end UserThreads.Threads
