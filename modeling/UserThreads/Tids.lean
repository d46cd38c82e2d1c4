import UserThreads.ReadyQueues

/-!
Only tids that `t_fork` has handed out are in use: the running thread, the
threads in queues and in the join table, and those the wake loop is about to
insert. So a new thread is in none of these places, and a tcb keeps the priority
it was forked with.
-/
namespace UserThreads.Threads

open LinkedCells Queue Runs

structure TidsOk (s : State) : Prop where
  current : s.currentRunningThread ≤ s.gThreadID
  waiting : ∀ i t, s.tcbWaiting i = some t → t ≤ s.gThreadID
  insert : ∀ i t, s.Mentions (.insert i t) → t ≤ s.gThreadID
  booked : Booked (fun _ => False) (fun _ t => t ≤ s.gThreadID) s

variable {g : Grain} {s s' : State} {m : Move} {t : Tid} {q : QRef} {i : ℕ} {good : QRef → Prop}

theorem lt_next (n : Tid) : n < n + 1 := Int.lt_add_one_of_le le_rfl

theorem Trans.gThreadID_le (h : Trans g s m s') : s.gThreadID ≤ s'.gThreadID := by
  cases h with
  | fork => exact le_of_lt (lt_next _)
  | _ => exact le_rfl

theorem Trans.current (h : Trans g s m s') :
    s'.currentRunningThread = s.currentRunningThread ∨
      ∃ y store, s.store.qRemove (.ready y) = some (some s'.currentRunningThread, store) := by
  cases h with
  | dispatchNew y t k store _ _ _ hrem => exact Or.inr ⟨y, store, hrem⟩
  | dispatchOld y t k k' store _ _ _ hrem => exact Or.inr ⟨y, store, hrem⟩
  | _ => exact Or.inl rfl

theorem Trans.tcbWaiting (h : Trans g s m s') (hi : s'.tcbWaiting i = some t) :
    s.tcbWaiting i = some t ∨ t = s.currentRunningThread := by
  cases h with
  | join tid k slot =>
    by_cases hslot : i = slot
    · subst hslot
      simp only [Function.update_self, Option.some.injEq] at hi
      exact Or.inr hi.symm
    · simp only [Function.update_of_ne hslot] at hi
      exact Or.inl hi
  | _ => exact Or.inl hi

theorem Trans.tidsOk (h : Trans g s m s') (hq : QueuesOk good s) (ht : TidsOk s) :
    TidsOk s' := by
  have hle := h.gThreadID_le
  obtain ⟨owner, hl, hins⟩ := ht.booked
  refine ⟨?_, ?_, ?_, ?_⟩
  · rcases h.current with hsame | ⟨y, store, hrem⟩
    · rw [hsame]
      exact le_trans ht.current hle
    · exact le_trans (hl.removed hrem) hle
  · intro i t hi
    rcases h.tcbWaiting hi with hold | rfl
    · exact le_trans (ht.waiting i t hold) hle
    · exact le_trans ht.current hle
  · intro i t hi
    rcases h.insert_mem hi with hold | hslot
    · exact le_trans (ht.insert i t hold) hle
    · exact le_trans (ht.waiting i t hslot) hle
  · refine h.booked ⟨owner, hl.mono_fits fun _ _ hfit => le_trans hfit hle, hins⟩
      (fun p => hq.cond _ p le_rfl) (hq.sem _ (Nat.lt_succ_self _))
      (steady_of_not_ready fun _ => id) ?_
    intro q t henq
    cases henq with
    | suspend => exact le_trans ht.current hle
    | fork f v p k hstack hid => exact le_of_eq hid.symm
    | signal _ _ _ _ _ _ _ _ hfit | release _ _ _ _ _ _ _ _ hfit => exact hfit
    | wake i t k hstack => exact le_trans (ht.insert i t (Or.inl (by simp [hstack]))) hle

theorem Initial.tidsOk (h : Initial s) : TidsOk s := by
  obtain ⟨f, v, p, hb⟩ := h.begun
  refine ⟨?_, ?_, ?_, h.booked fun _ _ => le_of_eq hb.gThreadID.symm⟩
  · rw [hb.current, hb.gThreadID]
    decide
  · intro i t hi
    simp [hb.tcbWaiting] at hi
  · intro i t hi
    cases h.mentions hi

end UserThreads.Threads
