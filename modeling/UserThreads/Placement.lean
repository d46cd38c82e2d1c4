import UserThreads.Places

/-!
Whether each thread is in exactly one place: on the processor, once in one queue,
or blocked in `t_join`. The join table is never cleared, and a thread that joins
a second time stands in it twice. Every thread is in one place exactly as long as
the wake loop does not come upon a joiner that it has found in a lower slot.
-/
namespace UserThreads.Threads

open LinkedCells Queue Runs MultilevelQueue

namespace State

/-- The tid has been handed out by `t_fork`. -/
def Forked (s : State) (t : Tid) : Prop := 0 < t ∧ t ≤ s.gThreadID

/-- The thread waits in `t_join` and is in no queue. -/
def InJoin (s : State) (t : Tid) : Prop :=
  ¬ s.Running t ∧ Absent s.contents t ∧ ∃ tid, s.Joins t tid

/-- A thread that has been forked and has not ended is in exactly one place, and one
that has ended is in no queue. -/
structure InOnePlace (s : State) (t : Tid) : Prop where
  living : s.Forked t → ¬ s.Ended t →
    s.Running t ∧ Absent s.contents t ∨
      ¬ s.Running t ∧ (∃ q, Once s.contents q t) ∨ s.InJoin t
  ended : s.Ended t → Absent s.contents t

end State

def OnePlace (s : State) : Prop := ∀ t, s.InOnePlace t

/-- A joiner that the wake loop takes from a slot is in no lower slot. -/
def TakenOnce (m : Move) (s : State) : Prop :=
  m = .exec → ∀ i t k, s.stack = .insert i t :: k → ∀ j < i, s.tcbWaiting j ≠ some t

/-- What a move does to one thread. -/
inductive Fate (s s' : State) (t : Tid) : Prop
  | stays (hforked : s'.Forked t → s.Forked t) (hended : s'.Ended t ↔ s.Ended t)
      (hrunning : s'.Running t ↔ s.Running t)
      (habsent : Absent s'.contents t ↔ Absent s.contents t)
      (honce : ∀ q, Once s'.contents q t ↔ Once s.contents q t)
      (hcontext : (s'.tcb t).context = (s.tcb t).context)
      (hwaiting : (s'.tcb t).waitingForTid = (s.tcb t).waitingForTid)
  | ends (hrun : s.Running t) (hended : s'.Ended t) (hcontents : s'.contents = s.contents)
      (hwaiting : (s'.tcb t).waitingForTid = (s.tcb t).waitingForTid)
  | suspends (q : QRef) (hrun : s.Running t) (hcode : phase s.stack = .code)
      (hsystem : phase s'.stack = .system) (hcontents : s'.contents = Levels.append s.contents q t)
      (hended : s'.Ended t ↔ s.Ended t)
      (hwaiting : (s'.tcb t).waitingForTid = (s.tcb t).waitingForTid)
  | forked (q : QRef) (hnew : t = s.gThreadID + 1) (hid : s'.gThreadID = t)
      (hcode : phase s.stack = .code)
      (hcur : s'.currentRunningThread = s.currentRunningThread)
      (hcontents : s'.contents = Levels.append s.contents q t)
      (hended : s'.Ended t ↔ s.Ended t) (hwaiting : (s'.tcb t).waitingForTid = 0)
  | joins (tid : Tid) (hrun : s.Running t) (hcode : phase s.stack = .code)
      (hsystem : phase s'.stack = .system) (hcontents : s'.contents = s.contents)
      (hended : s'.Ended t ↔ s.Ended t) (hjoins : s'.Joins t tid)
  | moves (q r : QRef) (rest : List Tid) (hhead : s.contents q = t :: rest)
      (hcontents : s'.contents = Levels.append (Levels.set s.contents q rest) r t)
      (hrunning : s'.Running t ↔ s.Running t) (hended : s'.Ended t ↔ s.Ended t)
      (hwaiting : (s'.tcb t).waitingForTid = (s.tcb t).waitingForTid)
  | inserted (i : ℕ) (k : List Frame) (q : QRef) (hstack : s.stack = .insert i t :: k)
      (hcontents : s'.contents = Levels.append s.contents q t)
      (hrunning : s'.Running t ↔ s.Running t) (hended : s'.Ended t ↔ s.Ended t)
      (hwaiting : (s'.tcb t).waitingForTid = (s.tcb t).waitingForTid)
  | dispatched (q : QRef) (rest : List Tid) (hhead : s.contents q = t :: rest)
      (hcontents : s'.contents = Levels.set s.contents q rest) (hrun : s'.Running t)
      (hended : s'.Ended t ↔ s.Ended t)
      (hwaiting : (s'.tcb t).waitingForTid = (s.tcb t).waitingForTid)

/-- Only forked threads are anywhere, and in its epilogue a thread has ended. -/
structure Alive (s : State) : Prop where
  known : ∀ t, s.Running t ∨ s.Ended t ∨ ¬ Absent s.contents t → s.Forked t
  waiting : ∀ i t, s.tcbWaiting i = some t → s.Forked t
  code : phase s.stack = .code → ¬ s.Ended s.currentRunningThread
  epilogue : phase s.stack = .epilogue → s.Ended s.currentRunningThread

/-- The wake loop has looked at the slots below `i` and made ready the joiners there;
the others that wait for the ending thread are blocked. -/
structure Searched (s : State) (i : ℕ) : Prop where
  found : ∀ j < i, ∀ t, s.tcbWaiting j = some t →
    (s.tcb t).waitingForTid = s.currentRunningThread → ¬ Absent s.contents t
  missing : ∀ t, (s.tcb t).waitingForTid = s.currentRunningThread →
    (∀ j < i, s.tcbWaiting j ≠ some t) → s.InJoin t ∧ ¬ s.Ended t

/-- A thread that waits for one that has not ended is blocked. -/
structure Waits (s : State) : Prop where
  target : ∀ t, (s.tcb t).waitingForTid ≠ 0 → ¬ s.Ended (s.tcb t).waitingForTid →
    s.InJoin t ∧ ¬ s.Ended t
  searched : ∀ i, loopIndex s.stack = some i → Searched s i

variable {s s' : State} {m : Move} {t u : Tid} {q : QRef} {k : List Frame}

theorem not_running_of_ne (h : t ≠ s.currentRunningThread) : ¬ s.Running t := fun hrun => h hrun.1

theorem not_running_of_system (h : phase s.stack = .system) : ¬ s.Running t :=
  fun hrun => hrun.2 h

theorem running_iff (hcur : s'.currentRunningThread = s.currentRunningThread)
    (hphase : phase s'.stack ≠ .system) (hphase' : phase s.stack ≠ .system) :
    s'.Running t ↔ s.Running t := by
  simp only [State.Running, hcur, hphase, hphase', ne_eq, not_false_eq_true, and_true]

theorem forked_iff (hid : s'.gThreadID = s.gThreadID) : s'.Forked t ↔ s.Forked t := by
  rw [State.Forked, State.Forked, hid]

theorem phase_of_loopIndex {i : ℕ} (h : loopIndex k = some i) : phase k = .epilogue := by
  cases k with
  | nil => cases h
  | cons f k => cases f <;> first | rfl | cases h

theorem not_system_of_code (h : phase k = .code) : phase k ≠ .system := by
  rw [h]
  simp

theorem PlaceMove.fate (h : PlaceMove s s' m)
    (hepilogue : phase s.stack = .epilogue → s.Ended s.currentRunningThread) (t : Tid) :
    Fate s s' t := by
  have hmono : ∀ u, s.Ended u → s'.Ended u := fun _ => h.ended_mono
  cases h with
  | keep _ hcontents htcb _ hid hcur hended hphase =>
    refine .stays (forked_iff hid).mp (hended t) ?_ ?_ (fun q => ?_) ?_ ?_
    · rw [State.Running, State.Running, hcur, hphase]
    · rw [hcontents]
    · rw [hcontents]
    · rw [htcb]
    · rw [htcb]
  | finish hstack hstack' hcontents htcb _ hid hcur hhist =>
    have hrunning := running_iff (t := t) hcur (by simp [hstack', phase, Frame.phase])
      (by simp [hstack, phase, Frame.phase])
    by_cases ht : t = s.currentRunningThread
    · refine .ends ⟨ht, by simp [hstack, phase, Frame.phase]⟩ ?_ hcontents (by rw [htcb])
      rw [State.Ended, hhist, ht]
      exact List.mem_cons_self ..
    · refine .stays (forked_iff hid).mp (by simp [State.Ended, hhist, ht]) hrunning ?_
        (fun q => ?_) ?_ ?_
      · rw [hcontents]
      · rw [hcontents]
      · rw [htcb]
      · rw [htcb]
  | abandon f hstack hstack' hf hcontents htcb _ hid hcur hended =>
    by_cases ht : t = s.currentRunningThread
    · refine .ends ⟨ht, hstack⟩ ?_ hcontents (by simp [htcb, ht, State.current])
      rcases hended with hhist | ⟨-, hphase⟩
      · rw [State.Ended, hhist, ht]
        exact List.mem_cons_self ..
      · exact ht ▸ hmono _ (hepilogue hphase)
    · refine .stays (forked_iff hid).mp ?_ (iff_of_false ?_ (not_running_of_ne ht)) ?_
        (fun q => ?_) ?_ ?_
      · rcases hended with hhist | ⟨hhist, -⟩ <;> simp [State.Ended, hhist, ht]
      · exact not_running_of_ne (hcur ▸ ht)
      · rw [hcontents]
      · rw [hcontents]
      · rw [htcb, Function.update_of_ne ht]
      · rw [htcb, Function.update_of_ne ht]
  | suspend q f k hphase hphase' _ hcontents htcb _ hid hcur hended =>
    by_cases ht : t = s.currentRunningThread
    · exact .suspends q ⟨ht, not_system_of_code hphase⟩ hphase hphase' (by rw [hcontents, ht])
        (hended t) (by simp [htcb, ht, State.current])
    · exact .stays (forked_iff hid).mp (hended t)
        (iff_of_false (not_running_of_system hphase') (not_running_of_ne ht))
        (by rw [hcontents, absent_append_iff ht]) (fun r => by rw [hcontents, once_append_iff ht])
        (by rw [htcb, Function.update_of_ne ht]) (by rw [htcb, Function.update_of_ne ht])
  | fork f v p hphase hphase' hcontents htcb _ hid hcur hended =>
    by_cases ht : t = s.gThreadID + 1
    · exact .forked (.ready p) ht (hid.trans ht.symm) hphase hcur (by rw [hcontents, ht])
        (hended t) (by simp [htcb, ht])
    · refine .stays (fun hf => ⟨hf.1, ?_⟩) (hended t)
        (running_iff hcur (not_system_of_code hphase') (not_system_of_code hphase))
        (by rw [hcontents, absent_append_iff ht]) (fun r => by rw [hcontents, once_append_iff ht])
        (by rw [htcb, Function.update_of_ne ht]) (by rw [htcb, Function.update_of_ne ht])
      exact Int.lt_add_one_iff.mp (lt_of_le_of_ne (hid ▸ hf.2) ht)
  | join tid k slot hstack _ hstack' hcontents htcb _ hid hcur hended =>
    have hcode : phase s.stack = .code := by rw [hstack]; rfl
    have hsystem : phase s'.stack = .system := by rw [hstack']; rfl
    by_cases ht : t = s.currentRunningThread
    · exact .joins tid ⟨ht, not_system_of_code hcode⟩ hcode hsystem hcontents (hended t)
        ⟨k, by simp [htcb, ht]⟩
    · exact .stays (forked_iff hid).mp (hended t)
        (iff_of_false (not_running_of_system hsystem) (not_running_of_ne ht))
        (by rw [hcontents]) (fun r => by rw [hcontents])
        (by rw [htcb, Function.update_of_ne ht]) (by rw [htcb, Function.update_of_ne ht])
  | move q p u rest hphase hphase' hhead hcontents htcb _ hid hcur hended =>
    have hrunning := running_iff (t := t) hcur (not_system_of_code hphase')
      (not_system_of_code hphase)
    by_cases ht : t = u
    · subst ht
      exact .moves q (.ready p) rest hhead hcontents hrunning (hended t) (htcb t).2
    · exact .stays (forked_iff hid).mp (hended t) hrunning
        (by rw [hcontents, absent_append_iff ht, absent_take_iff hhead ht])
        (fun r => by rw [hcontents, once_append_iff ht, once_take_iff hhead ht])
        (htcb t).1 (htcb t).2
  | insert i u p k hstack hstack' hcontents htcb _ hid hcur hended =>
    have hrunning := running_iff (t := t) hcur (by simp [hstack', phase, Frame.phase])
      (by simp [hstack, phase, Frame.phase])
    by_cases ht : t = u
    · subst ht
      exact .inserted i k (.ready p) hstack hcontents hrunning (hended t) (by rw [htcb])
    · exact .stays (forked_iff hid).mp (hended t) hrunning
        (by rw [hcontents, absent_append_iff ht]) (fun r => by rw [hcontents, once_append_iff ht])
        (by rw [htcb]) (by rw [htcb])
  | dispatch y u k rest hstack hphase' hhead hcontents htcb _ hid hcur hended =>
    have hsystem : phase s.stack = .system := by rw [hstack]; rfl
    by_cases ht : t = u
    · subst ht
      exact .dispatched (.ready y) rest hhead hcontents ⟨hcur.symm, not_system_of_code hphase'⟩
        (hended t) (htcb t).2
    · exact .stays (forked_iff hid).mp (hended t)
        (iff_of_false (not_running_of_ne (hcur ▸ ht)) (not_running_of_system hsystem))
        (by rw [hcontents, absent_take_iff hhead ht])
        (fun r => by rw [hcontents, once_take_iff hhead ht]) (htcb t).1 (htcb t).2

/-- What is in a queue is a thread that has not ended, stands there once, and is not
on the processor. -/
theorem OnePlace.queued (h : OnePlace s) (ha : Alive s) (ht : t ∈ s.contents q) :
    ¬ s.Running t ∧ ¬ s.Ended t ∧ ∃ r, Once s.contents r t := by
  have hin : ¬ Absent s.contents t := fun habsent => habsent q ht
  have hended : ¬ s.Ended t := fun hended => hin ((h t).ended hended)
  have hforked := ha.known t (Or.inr (Or.inr hin))
  rcases (h t).living hforked hended with ⟨-, habsent⟩ | ⟨hnot, honce⟩ | ⟨-, habsent, -⟩
  · exact absurd habsent hin
  · exact ⟨hnot, hended, honce⟩
  · exact absurd habsent hin

/-- What is on the processor is in no queue. -/
theorem OnePlace.running (h : OnePlace s) (ha : Alive s) (hrun : s.Running t) :
    Absent s.contents t := by
  by_cases hended : s.Ended t
  · exact (h t).ended hended
  · rcases (h t).living (ha.known t (Or.inl hrun)) hended with ⟨-, habsent⟩ | ⟨hnot, -⟩ | ⟨hnot, -⟩
    · exact habsent
    · exact absurd hrun hnot
    · exact absurd hrun hnot

theorem Alive.not_ended (ha : Alive s) (hrun : s.Running t) (hcode : phase s.stack = .code) :
    ¬ s.Ended t := hrun.1 ▸ ha.code hcode

/-- A move keeps a thread in one place, unless it inserts a joiner that is not blocked. -/
theorem Fate.inOnePlace (h : Fate s s' t) (hp : OnePlace s) (ha : Alive s)
    (hinsert : ∀ i k, s.stack = .insert i t :: k → s.InJoin t ∧ ¬ s.Ended t) :
    s'.InOnePlace t := by
  cases h with
  | stays hforked hended hrunning habsent honce hcontext =>
    refine ⟨fun hf hnot => ?_, fun hend => habsent.mpr ((hp t).ended (hended.mp hend))⟩
    simp only [State.InJoin, State.Joins, hrunning, habsent, honce, hcontext]
    exact (hp t).living (hforked hf) fun hend => hnot (hended.mpr hend)
  | ends hrun hended hcontents =>
    refine ⟨fun _ hnot => absurd hended hnot, fun _ => ?_⟩
    rw [hcontents]
    exact hp.running ha hrun
  | suspends q hrun hcode hsystem hcontents hended =>
    refine ⟨fun _ _ => Or.inr (Or.inl ⟨not_running_of_system hsystem, q, ?_⟩), fun hend => ?_⟩
    · rw [hcontents]
      exact (hp.running ha hrun).append
    · exact absurd (hended.mp hend) (ha.not_ended hrun hcode)
  | forked q hnew hid hcode hcur hcontents hended =>
    have hnot : ¬ s.Forked t := fun hf => absurd (hnew ▸ hf.2) (not_le_of_gt (lt_next _))
    have habsent : Absent s.contents t := by
      by_contra hin
      exact hnot (ha.known t (Or.inr (Or.inr hin)))
    refine ⟨fun _ _ => Or.inr (Or.inl ⟨?_, q, ?_⟩), fun hend => ?_⟩
    · refine not_running_of_ne fun ht => hnot (ha.known t (Or.inl ⟨?_, not_system_of_code hcode⟩))
      rw [ht, hcur]
    · rw [hcontents]
      exact habsent.append
    · exact absurd (ha.known t (Or.inr (Or.inl (hended.mp hend)))) hnot
  | joins tid hrun hcode hsystem hcontents hended hjoins =>
    refine ⟨fun _ _ => Or.inr (Or.inr ⟨not_running_of_system hsystem, ?_, tid, hjoins⟩),
      fun hend => ?_⟩
    · rw [hcontents]
      exact hp.running ha hrun
    · exact absurd (hended.mp hend) (ha.not_ended hrun hcode)
  | moves q r rest hhead hcontents hrunning hended =>
    obtain ⟨hnot, hliving, p, honce⟩ := hp.queued (q := q) (t := t) ha (by simp [hhead])
    refine ⟨fun _ _ => Or.inr (Or.inl ⟨fun hrun => hnot (hrunning.mp hrun), r, ?_⟩),
      fun hend => absurd (hended.mp hend) hliving⟩
    rw [hcontents]
    exact (honce.take hhead).append
  | inserted i k q hstack hcontents hrunning hended =>
    obtain ⟨⟨hnot, habsent, -⟩, hliving⟩ := hinsert i k hstack
    refine ⟨fun _ _ => Or.inr (Or.inl ⟨fun hrun => hnot (hrunning.mp hrun), q, ?_⟩),
      fun hend => absurd (hended.mp hend) hliving⟩
    rw [hcontents]
    exact habsent.append
  | dispatched q rest hhead hcontents hrun hended =>
    obtain ⟨-, hliving, p, honce⟩ := hp.queued (q := q) (t := t) ha (by simp [hhead])
    refine ⟨fun _ _ => Or.inl ⟨hrun, ?_⟩, fun hend => absurd (hended.mp hend) hliving⟩
    rw [hcontents]
    exact honce.take hhead

/-- A thread that is blocked in `t_join` stays so until the wake loop inserts it. -/
theorem Fate.inJoin (h : Fate s s' t) (hj : s.InJoin t ∧ ¬ s.Ended t)
    (hwaiting : (s'.tcb t).waitingForTid ≠ 0) (hinsert : ∀ i k, s.stack ≠ .insert i t :: k) :
    s'.InJoin t ∧ ¬ s'.Ended t := by
  obtain ⟨⟨hnot, habsent, hjoins⟩, hliving⟩ := hj
  cases h with
  | stays _ hended hrunning habsent' _ hcontext =>
    simp only [State.InJoin, State.Joins, hrunning, habsent', hcontext, hended]
    exact ⟨⟨hnot, habsent, hjoins⟩, hliving⟩
  | ends hrun | suspends _ hrun | joins _ hrun => exact absurd hrun hnot
  | forked _ _ _ _ _ _ _ hzero => exact absurd hzero hwaiting
  | moves q _ _ hhead | dispatched q _ hhead => exact absurd (by simp [hhead]) (habsent q)
  | inserted i k _ hstack => exact absurd hstack (hinsert i k)

theorem PlaceMove.forked_mono (h : PlaceMove s s' m) (ht : s.Forked t) : s'.Forked t := by
  cases h with
  | fork _ _ _ _ _ _ _ _ hid => exact ⟨ht.1, le_trans ht.2 (hid ▸ le_of_lt (lt_next _))⟩
  | keep _ _ _ _ hid | finish _ _ _ _ _ hid | abandon _ _ _ _ _ _ _ hid
  | suspend _ _ _ _ _ _ _ _ _ hid | join _ _ _ _ _ _ _ _ _ hid | move _ _ _ _ _ _ _ _ _ _ hid
  | insert _ _ _ _ _ _ _ _ _ hid | dispatch _ _ _ _ _ _ _ _ _ _ hid =>
    exact (forked_iff hid).mpr ht

theorem PlaceMove.known (h : PlaceMove s s' m) (ha : Alive s) (hl : LoopFrames s)
    (hin : s'.Running t ∨ s'.Ended t ∨ ¬ Absent s'.contents t) : s'.Forked t := by
  cases h.fate ha.epilogue t with
  | stays _ hended hrunning habsent =>
    rw [hended, hrunning, habsent] at hin
    exact h.forked_mono (ha.known t hin)
  | ends hrun | suspends _ hrun | joins _ hrun =>
    exact h.forked_mono (ha.known t (Or.inl hrun))
  | forked q hnew hid hcode =>
    obtain ⟨hpos, hle⟩ := ha.known _ (Or.inl ⟨rfl, not_system_of_code hcode⟩)
    exact ⟨hnew ▸ lt_trans (lt_of_lt_of_le hpos hle) (lt_next _), le_of_eq hid.symm⟩
  | moves q _ _ hhead | dispatched q _ hhead =>
    exact h.forked_mono (ha.known t (Or.inr (Or.inr fun hout => hout q (by simp [hhead]))))
  | inserted i k _ hstack => exact h.forked_mono (ha.waiting i t (hl.insert i t k hstack).1)

theorem PlaceMove.forked_of_slot (h : PlaceMove s s' m) (ha : Alive s) {i : ℕ}
    (hi : s'.tcbWaiting i = some t) : s'.Forked t := by
  have hold : s.tcbWaiting i = some t → s'.Forked t := fun hi => h.forked_mono (ha.waiting i t hi)
  have hmono : ∀ u, s.Forked u → s'.Forked u := fun _ => h.forked_mono
  cases h with
  | join _ _ slot hstack _ _ _ _ htable =>
    rw [htable] at hi
    by_cases hslot : i = slot
    · subst hslot
      rw [Function.update_self] at hi
      cases hi
      exact hmono _ (ha.known _ (Or.inl ⟨rfl, by simp [hstack, phase, Frame.phase]⟩))
    · rw [Function.update_of_ne hslot] at hi
      exact hold hi
  | keep _ _ _ htable | finish _ _ _ _ htable | abandon _ _ _ _ _ _ htable
  | suspend _ _ _ _ _ _ _ _ htable | fork _ _ _ _ _ _ _ htable | move _ _ _ _ _ _ _ _ _ htable
  | insert _ _ _ _ _ _ _ _ htable | dispatch _ _ _ _ _ _ _ _ _ htable =>
    exact hold (htable ▸ hi)

theorem PlaceMove.code (h : PlaceMove s s' m) (hp : OnePlace s) (ha : Alive s)
    (hcode : phase s'.stack = .code) : ¬ s'.Ended s'.currentRunningThread := by
  cases h with
  | keep _ _ _ _ _ hcur hended hphase =>
    rw [hcur, hended]
    exact ha.code (hphase ▸ hcode)
  | fork _ _ _ hphase _ _ _ _ _ hcur hended | move _ _ _ _ hphase _ _ _ _ _ _ hcur hended =>
    rw [hcur, hended]
    exact ha.code hphase
  | dispatch y u _ _ _ _ hhead _ _ _ _ hcur hended =>
    rw [hcur, hended]
    exact (hp.queued (q := .ready y) ha (by simp [hhead])).2.1
  | suspend _ _ _ _ hsystem =>
    rw [hsystem] at hcode
    cases hcode
  | abandon _ _ hstack' hf =>
    rw [hstack', phase, hf] at hcode
    cases hcode
  | finish _ hstack' | join _ _ _ _ _ hstack' | insert _ _ _ _ _ hstack' =>
    rw [hstack'] at hcode
    cases hcode

theorem PlaceMove.alive (h : PlaceMove s s' m) (hp : OnePlace s) (ha : Alive s)
    (hl : LoopFrames s) : Alive s' where
  known _ hin := h.known ha hl hin
  waiting _ _ hi := h.forked_of_slot ha hi
  code := h.code hp ha
  epilogue := h.epilogue ha.epilogue

theorem PlaceMove.target (h : PlaceMove s s' m) (hp : OnePlace s) (ha : Alive s)
    (hl : LoopFrames s) (hw : Waits s) (hne : (s'.tcb t).waitingForTid ≠ 0)
    (hnot : ¬ s'.Ended (s'.tcb t).waitingForTid) : s'.InJoin t ∧ ¬ s'.Ended t := by
  have hf := h.fate ha.epilogue t
  have hkeep : (s'.tcb t).waitingForTid = (s.tcb t).waitingForTid →
      s'.InJoin t ∧ ¬ s'.Ended t := by
    intro hwaiting
    have hliving : ¬ s.Ended (s.tcb t).waitingForTid := fun hend =>
      hnot (hwaiting ▸ h.ended_mono hend)
    refine hf.inJoin (hw.target t (hwaiting ▸ hne) hliving) hne fun i k hstack => hliving ?_
    rw [(hl.insert i t k hstack).2]
    exact ha.epilogue (by rw [hstack]; rfl)
  cases hf with
  | joins tid hrun hcode hsystem hcontents hended hjoins =>
    refine ⟨⟨not_running_of_system hsystem, ?_, tid, hjoins⟩,
      fun hend => ha.not_ended hrun hcode (hended.mp hend)⟩
    rw [hcontents]
    exact hp.running ha hrun
  | forked _ _ _ _ _ _ _ hzero => exact absurd hzero hne
  | stays _ _ _ _ _ _ hwaiting | ends _ _ _ hwaiting | suspends _ _ _ _ _ _ hwaiting
  | moves _ _ _ _ _ _ _ hwaiting | inserted _ _ _ _ _ _ _ hwaiting
  | dispatched _ _ _ _ _ _ hwaiting => exact hkeep hwaiting

/-- A slot that is not of the ending thread adds nothing. -/
theorem Searched.skip {i : ℕ} (h : Searched s i) (hpos : 0 < s.currentRunningThread)
    (hskip : joinTarget s i = 0 ∨ joinTarget s i ≠ s.currentRunningThread) :
    Searched s (i + 1) where
  found j hj t ht hwaiting := by
    rcases Nat.lt_succ_iff_lt_or_eq.mp hj with hlt | rfl
    · exact h.found j hlt t ht hwaiting
    · have htarget : joinTarget s j = s.currentRunningThread := by
        simpa [joinTarget, ht] using hwaiting
      rcases hskip with hzero | hother
      · exact absurd (htarget.symm.trans hzero) (ne_of_gt hpos)
      · exact absurd htarget hother
  missing t hwaiting hno := h.missing t hwaiting fun j hj => hno j (Nat.lt_succ_of_lt hj)

theorem PlaceMove.searched (h : PlaceMove s s' m) (ha : Alive s) (hl : LoopFrames s)
    (hw : Waits s) {i : ℕ} (hi : loopIndex s'.stack = some i) : Searched s' i := by
  have hepilogue := phase_of_loopIndex hi
  have hin : ∀ t, s.InJoin t ∧ ¬ s.Ended t → (s'.tcb t).waitingForTid ≠ 0 →
      (∀ i k, s.stack ≠ .insert i t :: k) → s'.InJoin t ∧ ¬ s'.Ended t :=
    fun t => (h.fate ha.epilogue t).inJoin
  cases h with
  | keep _ hcontents htcb htable _ hcur hended hphase hloop =>
    have hs : Searched s i := by
      rcases hloop i hi with hsame | ⟨j, rfl, hj, hskip⟩
      · exact hw.searched i hsame
      · refine (hw.searched j hj).skip ?_ hskip
        exact (ha.known _ (Or.inl ⟨rfl, by rw [phase_of_loopIndex hj]; simp⟩)).1
    constructor
    · rw [hcontents, htcb, htable, hcur]
      exact hs.found
    · simp only [State.InJoin, State.Running, State.Joins, hcontents, htcb, htable, hcur, hended,
        hphase]
      exact hs.missing
  | finish hstack hstack' hcontents htcb _ _ hcur =>
    rw [hstack'] at hi
    cases hi
    refine ⟨by simp, fun t hwaiting _ => ?_⟩
    have hpos := (ha.known _ (Or.inl ⟨rfl, by simp [hstack, phase, Frame.phase]⟩)).1
    rw [hcur] at hwaiting
    have hne : (s'.tcb t).waitingForTid ≠ 0 := hwaiting ▸ ne_of_gt hpos
    refine hin t (hw.target t ?_ ?_) hne ?_
    · rwa [← htcb]
    · rw [← htcb, hwaiting]
      exact ha.code (by rw [hstack]; rfl)
    · rw [hstack]
      simp
  | insert j u p k hstack hstack' hcontents htcb htable _ hcur =>
    rw [hstack'] at hi
    cases hi
    have hs := hw.searched j (by rw [hstack]; rfl)
    obtain ⟨hslot, htarget⟩ := hl.insert j u k hstack
    constructor
    · rw [hcontents, htcb, htable, hcur]
      intro j' hj' t ht hwaiting
      rcases Nat.lt_succ_iff_lt_or_eq.mp hj' with hlt | rfl
      · exact not_absent_append (hs.found j' hlt t ht hwaiting)
      · rw [hslot] at ht
        cases ht
        exact not_absent_append_self
    · intro t hwaiting hno
      rw [htcb, hcur] at hwaiting
      rw [htable] at hno
      have htu : t ≠ u := fun htu => hno j (Nat.lt_succ_self j) (htu ▸ hslot)
      have hpos := (ha.known _ (Or.inl ⟨rfl, by simp [hstack, phase, Frame.phase]⟩)).1
      have hblocked := hs.missing t hwaiting fun j' hj' => hno j' (Nat.lt_succ_of_lt hj')
      refine hin t hblocked ?_ fun j' k' hk => ?_
      · rw [htcb, hwaiting]
        exact ne_of_gt hpos
      · rw [hstack] at hk
        cases hk
        exact htu rfl
  | abandon _ _ hstack' hf =>
    rw [hstack', phase, hf] at hepilogue
    cases hepilogue
  | join _ _ _ _ _ hstack' =>
    rw [hstack'] at hi
    cases hi
  | suspend _ _ _ _ hphase' | fork _ _ _ _ hphase' | move _ _ _ _ _ hphase'
  | dispatch _ _ _ _ _ hphase' =>
    rw [hphase'] at hepilogue
    cases hepilogue

theorem PlaceMove.waits (h : PlaceMove s s' m) (hp : OnePlace s) (ha : Alive s)
    (hl : LoopFrames s) (hw : Waits s) : Waits s' where
  target _ hne hnot := h.target hp ha hl hw hne hnot
  searched _ hi := h.searched ha hl hw hi

/-- The wake loop inserts the thread that it has taken. -/
theorem step_insert {i : ℕ} (hstep : step .routine m s = some s') (hatomic : Atomic m s)
    (hq : QueuesOk AllQueues s) (hstack : s.stack = .insert i t :: k) :
    m = .exec ∧ ∃ q, s'.contents = Levels.append s.contents q t := by
  have hq' : QueuesOk AllQueues s' := (step_trans hstep).queuesOk hq steady_of_routine
  cases m with
  | exec =>
    simp only [step, exec, hstack, insertWhole, Option.bind_eq_bind, Option.bind_eq_some_iff,
      Option.some.injEq] at hstep
    obtain ⟨s₁, henq, rfl⟩ := hstep
    obtain ⟨-, store, -, rfl⟩ := enqueue_spec henq
    exact ⟨rfl, .ready (s.tcb t).priority, contents_append (f := id) hq hq'
      (fun r => by simp [State.goto, removedAt]) fun r => by simp [State.goto, insertedAt]⟩
  | expire =>
    have huser := hatomic rfl
    rw [hstack] at huser
    cases huser
  | call | finish => simp [step, hstack] at hstep

/-- A move keeps every thread in one place exactly when it takes no joiner again. -/
theorem onePlace_step_iff (hstep : step .routine m s = some s') (hatomic : Atomic m s)
    (ho : Orderly s) (hp : OnePlace s) (ha : Alive s) (hw : Waits s) :
    OnePlace s' ↔ TakenOnce m s := by
  have hmove := ho.placeMove (step_trans hstep) hatomic
  have hsearched : ∀ i t k, s.stack = .insert i t :: k → Searched s i := by
    intro i t k hstack
    exact hw.searched i (by rw [hstack]; rfl)
  constructor
  · intro hp' _ i t k hstack j hj hslot
    obtain ⟨-, q, hcontents⟩ := step_insert hstep hatomic ho.queues hstack
    have hin := (hsearched i t k hstack).found j hj t hslot (ho.loop.insert i t k hstack).2
    simp only [Absent, not_forall, not_not] at hin
    obtain ⟨r, hr⟩ := hin
    have hr' : t ∈ s'.contents r := by
      rw [hcontents]
      exact mem_append_iff.mpr (Or.inl hr)
    obtain ⟨-, -, r', honce⟩ := hp'.queued (hmove.alive hp ha ho.loop) hr'
    rw [hcontents] at honce
    exact not_once_append hr r' honce
  · intro hc t
    refine (hmove.fate ha.epilogue t).inOnePlace hp ha fun i k hstack => ?_
    obtain ⟨hm, -⟩ := step_insert hstep hatomic ho.queues hstack
    exact (hsearched i t k hstack).missing t (ho.loop.insert i t k hstack).2 (hc hm i t k hstack)

theorem Initial.alive (h : Initial s) : OnePlace s ∧ Alive s ∧ Waits s := by
  obtain ⟨f, v, p, hb⟩ := h.begun
  have hq : QueuesOk AllQueues s := h.queuesOk
  have hended : ∀ t, ¬ s.Ended t := fun t => by simp [State.Ended, hb.hist]
  have hsystem : phase s.stack = .system := by rw [hb.stack]; rfl
  have hcontents : s.contents = Levels.append (fun _ => []) (.ready p) 1 := by
    funext q
    have hq := (hq.contents (q := q) trivial).2
    by_cases hqp : q = .ready p
    · simpa [hb.hist, insertedAt, removedAt, hqp, Levels.append] using hq.symm
    · rw [Levels.append, Levels.set_of_ne hqp]
      simpa [hb.hist, insertedAt, removedAt, Ne.symm hqp] using hq.symm
  have hempty : ∀ t, Absent (fun _ : QRef => ([] : List Tid)) t := fun t q => List.not_mem_nil
  refine ⟨fun t => ⟨fun hf _ => ?_, fun hend => absurd hend (hended t)⟩, ⟨?_, ?_, ?_, ?_⟩, ⟨?_, ?_⟩⟩
  · obtain rfl : t = 1 :=
      le_antisymm (le_of_le_of_eq hf.2 hb.gThreadID) (Int.add_one_le_of_lt hf.1)
    refine Or.inr (Or.inl ⟨not_running_of_system hsystem, .ready p, ?_⟩)
    rw [hcontents]
    exact (hempty 1).append
  · intro t h'
    rcases h' with hrun | hend | hin
    · exact absurd hrun (not_running_of_system hsystem)
    · exact absurd hend (hended t)
    · obtain rfl : t = 1 := by
        by_contra ht
        rw [hcontents, absent_append_iff ht] at hin
        exact hin (hempty t)
      exact ⟨Int.one_pos, le_of_eq hb.gThreadID.symm⟩
  · simp [hb.tcbWaiting]
  · rw [hsystem]
    simp
  · rw [hsystem]
    simp
  · intro t hne
    refine absurd ?_ hne
    by_cases ht : t = 1
    · simp [hb.tcb, ht]
    · simp [hb.tcb, Function.update_of_ne ht]
  · intro i hi
    rw [hb.stack] at hi
    cases hi

variable {s₀ : State} {path : List (Move × State)}

/-- When each routine is one step, every thread is in one place in all states exactly
when the wake loop never takes a joiner from a second slot. -/
theorem one_place_iff (h₀ : Initial s₀) (hpath : Path (step .routine) s₀ path s)
    (hatomic : ∀ x ∈ path, Atomic x.1 x.2) :
    ((∀ x ∈ path, OnePlace x.2) ∧ OnePlace s) ↔ ∀ x ∈ path, TakenOnce x.1 x.2 := by
  obtain ⟨hp₀, ha₀, hw₀⟩ := h₀.alive
  refine hpath.forall_iff (P := OnePlace) (C := TakenOnce)
    (I := fun a => Orderly a ∧ Alive a ∧ Waits a) hatomic ⟨h₀.orderly, ha₀, hw₀⟩ hp₀ ?_
  intro m a b hI hp hatomic hstep
  obtain ⟨ho, ha, hw⟩ := hI
  have h := step_trans hstep
  have hmove := ho.placeMove h hatomic
  exact ⟨onePlace_step_iff hstep hatomic ho hp ha hw,
    fun _ => ⟨h.orderly hatomic ho, hmove.alive hp ha ho.loop, hmove.waits hp ha ho.loop hw⟩⟩

/-- Thread 1 joins thread 2 and then thread 3, whose function returns. -/
def joinedTwo : List Move :=
  [.exec, .exec, .call (.tFork 0 .null 126), .exec, .exec, .call (.tFork 0 .null 125), .exec,
   .exec, .call (.tJoin 2), .exec, .exec, .exec, .finish] ++ List.replicate 59 .exec ++
  [.call (.tJoin 3), .exec, .exec, .exec, .finish] ++ List.replicate 8 .exec

/-- Thread 1 is in its ready queue twice. -/
theorem joiner_twice :
    ∃ s₀ path s, Initial s₀ ∧ Path (step .routine) s₀ path s ∧ (∀ x ∈ path, Atomic x.1 x.2) ∧
      ¬ OnePlace s := by
  obtain ⟨s₀, path, s, h₀, hpath, hatomic, hgood⟩ := exists_path .routine Atomic [] 127 joinedTwo
    (fun s => s.contents (.ready 127) = [1, 1] && s.gThreadID = 3 && !s.hist.contains (.ended 1))
    (by decide +kernel)
  simp only [Bool.and_eq_true, decide_eq_true_eq, Bool.not_eq_true', List.contains_eq_mem,
    decide_eq_false_iff_not] at hgood
  obtain ⟨⟨hcontents, hid⟩, hended⟩ := hgood
  refine ⟨s₀, path, s, h₀, hpath, hatomic, fun hs => ?_⟩
  have hin : ¬ Absent s.contents 1 := fun habsent => habsent (.ready 127) (by simp [hcontents])
  rcases (hs 1).living ⟨Int.one_pos, by rw [hid]; decide⟩ hended with
    ⟨-, habsent⟩ | ⟨-, q, hcount, hothers⟩ | ⟨-, habsent, -⟩
  · exact hin habsent
  · by_cases hq : q = .ready 127
    · simp [hq, hcontents] at hcount
    · exact hothers _ (Ne.symm hq) (by simp [hcontents])
  · exact hin habsent

/-- A thread joins another one, and both go on. -/
theorem one_place_iff_join :
    ∃ (s₀ : State) (path : List (Move × State)) (s : State), Initial s₀ ∧
      s.hist.head? = some (.joined 1 2) ∧
      (((∀ x ∈ path, OnePlace x.2) ∧ OnePlace s) ↔ ∀ x ∈ path, TakenOnce x.1 x.2) := by
  obtain ⟨s₀, path, s, h₀, hpath, hatomic, hgood⟩ := exists_path .routine Atomic [] 127
    ([.exec, .exec, .call (.tFork 0 .null 126), .exec, .exec, .call (.tJoin 2), .exec, .exec,
      .exec, .finish] ++ List.replicate 58 .exec)
    (fun s => s.hist.head? = some (.joined 1 2)) (by decide +kernel)
  exact ⟨s₀, path, s, h₀, by simpa using hgood, one_place_iff h₀ hpath hatomic⟩

end UserThreads.Threads
