import UserThreads.Transitions

/-!
The shape of a thread's stack. Without timer frames a stack has at most three
program points: the thread's own code, the routine it has called, and the
`t_yield` inside `t_fork` or the `lock_release` inside `t_wait`. Code outside
any thread function stands alone. Timer frames may be pushed on any of these.
A saved context is such a stack whose top is the return of a `setjmp`.
-/
namespace UserThreads.Threads

open LinkedCells Queue

namespace Frame

/-- The bottom of a stack: thread code, or library code that never returns. -/
def isBase : Frame → Bool
  | .user | .start | .wake .. | .wakeTest .. | .wakeTake .. | .insert .. | .inserting ..
  | .leave | .sitBottom | .sched | .done => true
  | _ => false

def isTimer : Frame → Bool
  | .handler | .resumed | .handled => true
  | _ => false

/-- A routine called from the thread's own code. -/
def isCall (f : Frame) : Bool := !f.isBase && !f.isTimer

/-- What `t_yield` inside `t_fork` can be at. -/
def inFork : Frame → Bool
  | .enter .tYield | .yielded | .ret _ => true
  | _ => false

/-- What `lock_release` inside `t_wait` can be at. -/
def inWait : Frame → Bool
  | .enter (.lockRelease _) | .released | .ret _ => true
  | _ => false

/-- The program points at which a `setjmp` returns again. -/
def isResume : Frame → Bool
  | .yielded | .joined _ | .waited | .passed | .resumed => true
  | _ => false

end Frame

inductive WellShaped : List Frame → Prop
  | base {f : Frame} (hf : f.isBase = true) : WellShaped [f]
  | call {f : Frame} (hf : f.isCall = true) : WellShaped [f, .user]
  | fork {f : Frame} {tid : Tid} (hf : f.inFork = true) : WellShaped [f, .forked tid, .user]
  | wait {f : Frame} {c : CondId} (hf : f.inWait = true) : WellShaped [f, .waiting c, .user]
  | timer {f : Frame} {k : List Frame} (hf : f.isTimer = true) (hk : WellShaped k) :
      WellShaped (f :: k)

/-- What `setjmp` may save: a stack whose top is a resumption point. -/
inductive Resumable : List Frame → Prop
  | intro {f : Frame} {k : List Frame} (hf : f.isResume = true) (hk : WellShaped (f :: k)) :
      Resumable (f :: k)

structure Shaped (s : State) : Prop where
  stack : WellShaped s.stack
  context : ∀ t k, (s.tcb t).context = some k → Resumable k

variable {g : Grain} {s s' : State} {m : Move} {k : List Frame} {f : Frame}

theorem WellShaped.below_call (h : WellShaped (f :: k)) (hf : f.isCall = true)
    (hfork : f.inFork = false) (hwait : f.inWait = false) : k = [.user] := by
  cases h with
  | base hb => simp [Frame.isCall, hb] at hf
  | call => rfl
  | fork hf' => simp [hf'] at hfork
  | wait hf' => simp [hf'] at hwait
  | timer ht => simp [Frame.isCall, ht] at hf

theorem WellShaped.below_timer (h : WellShaped (f :: k)) (hf : f.isTimer = true) :
    WellShaped k := by
  cases h with
  | base hb => cases f <;> simp_all [Frame.isBase, Frame.isTimer]
  | call hc => simp [Frame.isCall, hf] at hc
  | fork hf' => cases f <;> simp_all [Frame.inFork, Frame.isTimer]
  | wait hf' => cases f <;> simp_all [Frame.inWait, Frame.isTimer]
  | timer _ hk => exact hk

/-- Below a routine that other routines call as well. -/
theorem WellShaped.below_inner (h : WellShaped (f :: k)) (hf : f.isCall = true) :
    k = [.user] ∨ (∃ tid, f.inFork = true ∧ k = [.forked tid, .user]) ∨
      ∃ c, f.inWait = true ∧ k = [.waiting c, .user] := by
  cases h with
  | base hb => simp [Frame.isCall, hb] at hf
  | call => exact Or.inl rfl
  | fork hf' => exact Or.inr (Or.inl ⟨_, hf', rfl⟩)
  | wait hf' => exact Or.inr (Or.inr ⟨_, hf', rfl⟩)
  | timer ht => simp [Frame.isCall, ht] at hf

/-- A frame may be replaced by one that fits the same callers. -/
theorem WellShaped.replace {f' : Frame} (h : WellShaped (f :: k)) (hf : f.isCall = true)
    (hcall : f'.isCall = true) (hfork : f.inFork = true → f'.inFork = true)
    (hwait : f.inWait = true → f'.inWait = true) : WellShaped (f' :: k) := by
  rcases h.below_inner hf with rfl | ⟨tid, hin, rfl⟩ | ⟨c, hin, rfl⟩
  · exact .call hcall
  · exact .fork (hfork hin)
  · exact .wait (hwait hin)

/-- What a routine returns to. -/
theorem WellShaped.tail (h : WellShaped (f :: k)) (hf : f.isCall = true) : WellShaped k := by
  rcases h.below_inner hf with rfl | ⟨tid, -, rfl⟩ | ⟨c, -, rfl⟩
  · exact .base rfl
  · exact .call rfl
  · exact .call rfl

theorem Control.wellShaped {b : Bool} {es : List Event} (h : Control s m k b es)
    (hs : WellShaped s.stack) : WellShaped k := by
  cases h with
  | expire _ _ => exact .timer rfl hs
  | call op _ => exact .call rfl
  | finish _ => exact .base rfl
  | joinDone tid k hstack _ =>
    rw [hstack] at hs
    exact hs.replace rfl rfl (fun _ => rfl) (fun _ => rfl)
  | waitLock c l k hstack =>
    rw [hstack] at hs
    obtain rfl := hs.below_call rfl rfl rfl
    exact .wait rfl
  | waitNull c k hstack =>
    rw [hstack] at hs
    obtain rfl := hs.below_call rfl rfl rfl
    exact .call rfl
  | sigNone c val lock k hstack _ =>
    rw [hstack] at hs
    exact hs.replace rfl rfl (fun _ => rfl) (fun _ => rfl)
  | sigEmpty c val lock k i hstack _ _ =>
    rw [hstack] at hs
    exact hs.replace rfl rfl (fun _ => rfl) (fun _ => rfl)
  | acquire l k hstack =>
    rw [hstack] at hs
    obtain rfl := hs.below_call rfl rfl rfl
    exact .call rfl
  | nullReturn op k hstack _ =>
    rw [hstack] at hs
    exact hs.tail rfl
  | ret v k hstack =>
    rw [hstack] at hs
    exact hs.tail rfl
  | forked tid k hstack =>
    rw [hstack] at hs
    exact hs.replace rfl rfl (fun h => by cases h) (fun h => by cases h)
  | enable f k hstack hf =>
    rw [hstack] at hs
    rcases hf with rfl | rfl | rfl <;> exact hs.replace rfl rfl (fun _ => rfl) (fun _ => rfl)
  | joined tid k hstack =>
    rw [hstack] at hs
    exact hs.replace rfl rfl (fun _ => rfl) (fun _ => rfl)
  | waitedNull k hstack _ =>
    rw [hstack] at hs
    exact hs.tail rfl
  | waitedLock l k hstack _ =>
    rw [hstack] at hs
    obtain rfl := hs.below_call rfl rfl rfl
    exact .call rfl
  | spinBusy l k v hstack _ _ => exact hstack ▸ hs
  | spinFree l k hstack _ =>
    rw [hstack] at hs
    obtain rfl := hs.below_call rfl rfl rfl
    exact .call rfl
  | resumed k hstack =>
    rw [hstack] at hs
    exact .timer rfl (hs.below_timer rfl)
  | handled k hstack =>
    rw [hstack] at hs
    exact hs.below_timer rfl
  | start | wakeSkip | wakeHit | wakeEnd | testHit | testMiss | take | sitBottom | idle =>
    exact .base rfl

theorem Suspends.resumable {q : QRef} {next : Frame} (h : Suspends s q f k next)
    (hs : WellShaped s.stack) : Resumable (f :: k) ∧ next.isBase = true := by
  cases h with
  | yield k hstack =>
    rw [hstack] at hs
    exact ⟨.intro rfl (hs.replace rfl rfl (fun _ => rfl) (fun h => by cases h)), rfl⟩
  | timer k hstack =>
    rw [hstack] at hs
    exact ⟨.intro rfl (.timer rfl (hs.below_timer rfl)), rfl⟩
  | wait c k hstack =>
    rw [hstack] at hs
    obtain rfl := hs.below_call rfl rfl rfl
    exact ⟨.intro rfl (.call rfl), rfl⟩
  | pass i v k hstack _ _ =>
    rw [hstack] at hs
    obtain rfl := hs.below_call rfl rfl rfl
    exact ⟨.intro rfl (.call rfl), rfl⟩

/-- The stack that a move leaves. -/
theorem Trans.wellShaped (h : Trans g s m s') (hs : Shaped s) : WellShaped s'.stack := by
  have hw := hs.stack
  cases h with
  | control m k b es h => exact h.wellShaped hw
  | suspend q f k next store h => exact .base (h.resumable hw).2
  | fork f v p k k' b store hstack _ _ caller _ hk =>
    rw [hstack] at hw
    obtain rfl := hw.below_call rfl rfl rfl
    rcases hk with ⟨_, rfl, _⟩ | ⟨_, rfl, _⟩
    · exact .fork rfl
    · exact .call rfl
  | unlock l k v hstack _ =>
    rw [hstack] at hw
    exact hw.replace rfl rfl (fun h => by cases h) (fun _ => rfl)
  | lock l k v hstack _ =>
    rw [hstack] at hw
    exact hw.replace rfl rfl (fun _ => rfl) (fun _ => rfl)
  | sigWake c val lock k i t store store' hstack =>
    rw [hstack] at hw
    exact hw.replace rfl rfl (fun _ => rfl) (fun _ => rfl)
  | semWake i k v t store store' hstack =>
    rw [hstack] at hw
    exact hw.replace rfl rfl (fun _ => rfl) (fun _ => rfl)
  | semValue op i k v v' hstack _ hop =>
    rw [hstack] at hw
    rcases hop with ⟨rfl, _⟩ | ⟨rfl, _⟩ <;>
      exact hw.replace rfl rfl (fun _ => rfl) (fun _ => rfl)
  | semFree i k v hstack _ =>
    rw [hstack] at hw
    exact hw.replace rfl rfl (fun _ => rfl) (fun _ => rfl)
  | newLock k hstack =>
    rw [hstack] at hw
    exact hw.replace rfl rfl (fun _ => rfl) (fun _ => rfl)
  | newCond lock k hstack _ =>
    rw [hstack] at hw
    exact hw.replace rfl rfl (fun _ => rfl) (fun _ => rfl)
  | newSem count k hstack =>
    rw [hstack] at hw
    exact hw.replace rfl rfl (fun _ => rfl) (fun _ => rfl)
  | dispatchOld y t k k' store _ _ _ _ _ hcontext =>
    cases hs.context t k' hcontext with
    | intro _ hk => exact hk
  | join | exit | leave | record | insertWhole | insertCall | inserting | inserted | counted
  | dispatchNew => exact .base rfl

/-- A tcb keeps its saved context, loses it, gets none, or has a resumable one. -/
theorem Trans.context (h : Trans g s m s') (hs : WellShaped s.stack) (t : Tid) :
    (s'.tcb t).context = (s.tcb t).context ∨ (s'.tcb t).context = none ∨
      ∃ k, (s'.tcb t).context = some k ∧ Resumable k := by
  have hupdate : ∀ (u : Tid) (b : Tcb), (b.context = (s.tcb u).context ∨ b.context = none ∨
      ∃ k, b.context = some k ∧ Resumable k) →
      (Function.update s.tcb u b t).context = (s.tcb t).context ∨
        (Function.update s.tcb u b t).context = none ∨
        ∃ k, (Function.update s.tcb u b t).context = some k ∧ Resumable k := by
    intro u b hb
    by_cases htu : t = u
    · subst htu
      simpa only [Function.update_self] using hb
    · exact Or.inl (by rw [Function.update_of_ne htu])
  cases h with
  | suspend q f k next store h =>
    exact hupdate _ _ (Or.inr (Or.inr ⟨_, rfl, (h.resumable hs).1⟩))
  | fork => exact hupdate _ _ (Or.inr (Or.inl rfl))
  | join tid k slot hstack =>
    rw [hstack] at hs
    obtain rfl := hs.below_call rfl rfl rfl
    exact hupdate _ _ (Or.inr (Or.inr ⟨_, rfl, .intro rfl (.call rfl)⟩))
  | sigWake => exact hupdate _ _ (Or.inl rfl)
  | exit | leave => exact hupdate _ _ (Or.inr (Or.inl rfl))
  | dispatchNew => exact hupdate _ _ (Or.inl rfl)
  | _ => exact Or.inl rfl

theorem Trans.shaped (h : Trans g s m s') (hs : Shaped s) : Shaped s' where
  stack := h.wellShaped hs
  context t k hk := by
    rcases h.context hs.stack t with heq | hnone | ⟨k', hk', hres⟩
    · exact hs.context t k (heq ▸ hk)
    · rw [hnone] at hk
      cases hk
    · rw [hk'] at hk
      cases hk
      exact hres

end UserThreads.Threads
