import UserThreads.ElevatorVisits

/-!
Calls of the elevator. A rider that finds the elevator stopped signals it, then counts itself
and waits; the elevator stops when it finds no rider counted, and sleeps. If no rider counts
itself while the elevator is on its way to sleep, the elevator sleeps with nobody waiting, and
every rider that comes later wakes it before it counts itself.
-/
namespace UserThreads.Elevator

open Threads Runs Tallies MultilevelQueue

variable {l : List Arrival} {s s' : Lift} {place : Place} {x y : Option Op × Place}
  {σ σ' : Stage Lift Place} {t u : Tid} {c : CondId} {p : ℤ} {r : Rider} {o : Option Op}

/-- The elevator has not slept yet, or it has found nobody waiting and has not fallen asleep. -/
def isDeciding : Option Op × Place → Bool
  | (_, .post .start) | (_, .post .faceUp) | (_, .post .firstFloor) | (_, .post .noRiders) => true
  | (_, .post .firstWait) | (_, .post .stop) | (_, .post .sleep) => true
  | (some _, .post .spaces) | (some _, .post .isOpen) => true
  | _ => false

/-- The elevator is asleep in a stopped cabin, and nobody else runs or is ready. -/
structure AtRest (σ : Stage Lift Place) : Prop where
  blocked : ∃ p, 2 ∈ σ.queues (.cond elvWait p)
  stopped : σ.shared.state = .stopped
  quiet : ∀ t, t ≠ 2 → ¬ σ.Awake t

/-- The thread is at `bld.waiters++`. -/
def isCounting : Option Op × Place → Bool
  | (none, .rider _ .countWaiter) => true
  | _ => false

/-- No rider executes `bld.waiters++` while the elevator is on its way to sleep. -/
def CallsApart (σ : Stage Lift Place) : Prop :=
  ∀ t ∈ σ.on, isCounting (σ.pos t) = true → isDeciding (σ.pos 2) = false

instance (σ : Stage Lift Place) : Decidable (CallsApart σ) :=
  inferInstanceAs (Decidable (∀ t ∈ σ.on, _))

/-- The door is open from the start to the end of a visit. -/
def isOpened : Option Op × Place → Bool
  | (_, .post (.enters ..)) | (_, .post (.sigEnter ..)) | (_, .post (.waitEnter ..)) => true
  | (_, .post (.exits ..)) | (_, .post (.sigExit ..)) | (_, .post (.waitExit ..)) => true
  | (_, .post (.closeDoor _)) => true
  | _ => false

/-- The rider has not signalled the stopped elevator yet, or has ended. -/
def isCalling : Option Op × Place → Bool
  | (none, .rider _ .start) | (none, .rider _ .isStopped) | (none, .rider _ .sigElevator) => true
  | (some _, .rider _ .countFloor) | (none, .rider _ .gone) => true
  | _ => false

/-- A call is not lost: the elevator goes to sleep with nobody waiting, and until a rider has
signalled it nobody counts itself. -/
structure Attentive (σ : Stage Lift Place) : Prop where
  early : 2 ≤ σ.last ∨ σ.shared.waiters = 0
  opened : isOpened (σ.pos 2) = true → σ.shared.state = .opened
  deciding : isDeciding (σ.pos 2) = true → σ.shared.waiters = 0
  asleep : ∀ p, 2 ∈ σ.queues (.cond elvWait p) → σ.shared.state = .stopped →
    σ.shared.waiters = 0 ∧ ∀ u, 3 ≤ u → σ.Awake u → isCalling (σ.pos u) = true

/-- The elevator does not change `bld.waiters`, decides to sleep when it is 0, and opens the
door for a visit. -/
theorem post_waiters {q : Post} {z : Option Op × Post}
    (h : Advance elevatorThread s (o, q) s' z) : s'.waiters = s.waiters ∧
      (isDeciding (z.1, .post z.2) = true → isDeciding (o, .post q) = true ∨ s.waiters = 0) ∧
      (isOpened (z.1, .post z.2) = true → s'.state = .opened ∨
        isOpened (o, .post q) = true ∧ s'.state = s.state) := by
  cases h with
  | ret op =>
    refine ⟨rfl, fun h => Or.inl ?_, fun h => Or.inr ⟨?_, rfl⟩⟩
    · cases q <;> first | rfl | cases h
    · cases q <;> first | rfl | cases h
  | call op _ next hcode =>
    refine ⟨rfl, fun h => Or.inl ?_, fun h => Or.inr ⟨?_, rfl⟩⟩
    · cases q with
      | yields d n => cases n <;> cases hcode <;> cases h
      | isEdge d => cases d <;> cases hcode
      | _ => cases hcode <;> first | rfl | cases h
    · cases q with
      | yields d n => cases n <;> cases hcode <;> cases h
      | isEdge d => cases d <;> cases hcode
      | _ => cases hcode <;> first | rfl | cases h
  | act _ next _ hcode =>
    cases q with
    | yields d n => cases n <;> cases hcode
    | isEdge d =>
      cases d <;> (injection hcode with hs hnext; split at hnext <;> subst hs hnext)
      all_goals exact ⟨rfl, fun h => Bool.noConfusion h, fun h => Bool.noConfusion h⟩
    | firstWait | sigEnter | waitEnter | sigExit | waitExit | sleep => cases hcode
    | isIdle =>
      injection hcode with hs hnext
      split at hnext <;> rename_i hidle <;> subst hs hnext
      · exact ⟨rfl, fun _ => Or.inr hidle.2, fun h => Bool.noConfusion h⟩
      · exact ⟨rfl, fun h => Bool.noConfusion h, fun h => Bool.noConfusion h⟩
    | _ =>
      injection hcode with hs hnext
      try (repeat' split at hnext)
      all_goals subst hs hnext
      all_goals refine ⟨rfl, fun h => ?_, fun h => ?_⟩
      all_goals first | exact Or.inl rfl | exact Or.inr ⟨rfl, rfl⟩ | cases h

theorem storeStart_waiters (g : Lift) (k : Rank) (n : ℤ) :
    (g.storeStart k n).waiters = g.waiters := by
  cases k <;> rfl

theorem storeEnd_waiters (g : Lift) (k : Rank) (n : ℤ) : (g.storeEnd k n).waiters = g.waiters := by
  cases k <;> rfl

/-- A rider counts itself, and takes itself off when it has entered. -/
theorem rider_waiters {q : Stand} {z : Option Op × Stand}
    (h : Advance (fun g => rider g r) s (o, q) s' z) :
    s'.waiters = s.waiters ∨ z.2 ≠ q ∧ o = none ∧ (q = .countWaiter ∨ q = .uncountWaiter) := by
  cases h with
  | ret | call => exact Or.inl rfl
  | act _ next _ hcode =>
    cases q with
    | broadcast i =>
      obtain ⟨rfl, rfl⟩ := broadcast_act hcode
      exact Or.inl rfl
    | storeStart | clearStart =>
      cases hcode
      exact Or.inl (storeStart_waiters ..)
    | storeEnd | clearEnd =>
      cases hcode
      exact Or.inl (storeEnd_waiters ..)
    | countWaiter =>
      cases hcode
      exact Or.inr ⟨by split_ifs <;> simp, rfl, Or.inl rfl⟩
    | uncountWaiter =>
      cases hcode
      exact Or.inr ⟨by simp, rfl, Or.inr rfl⟩
    | _ =>
      cases hcode
      try exact Or.inl rfl

/-- A rider that finds the elevator stopped signals before it counts itself. -/
theorem calling_advance {q q' : Stand} {o' : Option Op} (hr : r.Valid)
    (h : isCalling (o, .rider r q) = true)
    (hstopped : s.state = .stopped) (hasks : ∀ op, o = some op → Asks r op q)
    (hadv : Advance (fun g => rider g r) s (o, q) s' (o', q')) :
    isCalling (o', .rider r q') = true ∨ o = some (.tSig elvWait .null none) := by
  cases o with
  | some op =>
    have hop := hasks op rfl
    cases q <;> cases h
    cases hop
    exact Or.inr rfl
  | none =>
    left
    cases q <;> cases h <;> cases hadv <;> rename_i hcode
    · have hdiffer : r.floorS < r.floorE ∨ r.floorE < r.floorS := lt_or_gt_of_ne hr.differ
      simp only [rider, if_pos hdiffer] at hcode
      cases hcode
      rfl
    · cases hcode
    · simp only [rider, if_pos hstopped] at hcode
      cases hcode
      rfl
    · cases hcode
    · cases hcode
    · cases hcode
      rfl
    · cases hcode
    · cases hcode

/-- A signal to the sleeping elevator wakes it. -/
theorem Cast.wakes_elevator (h : Cast l σ) (hok : σ.Ok (program l)) (hl : AllValid l)
    (hbeat : Beat (program l) σ σ') (hon : σ.on = some t) {a : AnyPtr}
    (hpos : σ.pos t = (some (.tSig elvWait a none), place)) (hmoved : σ'.pos t ≠ σ.pos t)
    (hasleep : 2 ∈ σ.queues (.cond elvWait p)) (q : ℤ) : 2 ∉ σ'.queues (.cond elvWait q) := by
  cases hbeat with
  | preempt | leave | finish | linger | dispatch => exact absurd rfl hmoved
  | act v _ _ _ hv hpos' | call v _ _ _ hv hpos' | made v _ _ hv hpos' | yield v _ hv hpos'
  | sleep v _ _ hv hpos' | exit v _ _ hv hpos' | fork v _ _ _ _ hv hpos' =>
    cases hon.symm.trans hv
    cases hpos.symm.trans hpos'
  | sigNone v c _ _ hv hpos' hempty =>
    cases hon.symm.trans hv
    cases hpos.symm.trans hpos'
    rw [hempty p] at hasleep
    cases hasleep
  | sigWake v c a' place' p' w rest hv hpos' hhead hhigh =>
    cases hon.symm.trans hv
    cases hpos.symm.trans hpos'
    have hw : w ∈ σ.queues (.cond elvWait p') := hhead ▸ List.mem_cons_self ..
    obtain rfl : w = 2 := by
      rcases h.waiting hok hw with ⟨hw, -⟩ | ⟨-, -, r, q', -, hr, -, hasks⟩
      · exact hw
      · exact absurd hasks (hl r hr).not_elvWait
    intro hmem
    have hmem : (2 : Tid) ∈ (σ.queues.set (.cond elvWait p') rest).append
      (.ready (σ.priority 2)) 2 (.cond elvWait q) := hmem
    rcases mem_append_iff.mp hmem with hold | ⟨hq, -⟩
    · exact hok.taken hhead hold
    · cases hq

/-- `bld.waiters` changes only where a rider counts itself or takes itself off, or at the start. -/
theorem Cast.waiters_kept (h : Cast l σ) (hok : σ.Ok (program l)) (hbeat : Beat (program l) σ σ') :
    σ'.shared.waiters = σ.shared.waiters ∨ σ'.shared.waiters = 0 ∨
      ∃ t r q, σ.on = some t ∧ σ.pos t = (none, .rider r q) ∧ GoesOn σ σ' ∧
        (q = .countWaiter ∨ q = .uncountWaiter) := by
  cases h.shared_beat hok hbeat with
  | same hshared => exact Or.inl (by rw [hshared])
  | cleared _ hshared => exact Or.inr (Or.inl (by rw [hshared]; rfl))
  | post o o' q q' _ _ _ hadv => exact Or.inl (post_waiters hadv).1
  | rider t r o o' q q' hon _ hle _ hpos hpos' hadv =>
    rcases rider_waiters hadv with hsame | ⟨hnext, rfl, hcount⟩
    · exact Or.inl hsame
    · have hgoes : GoesOn σ σ' := ⟨t, hle, by rw [hpos, hpos']; simpa using hnext⟩
      exact Or.inr (Or.inr ⟨t, r, q, hon, hpos, hgoes, hcount⟩)

theorem not_deciding (h : isVisiting x = true) : isDeciding x = false := by
  obtain ⟨o, place⟩ := x
  cases place with
  | post q => cases o <;> cases q <;> first | rfl | cases h
  | _ => cases o <;> cases h

section Attentive

variable {w₀ w : World Lift Place} {g : Grain}

theorem Attentive.early_step (h : Attentive σ) (hc : Cast l σ) (hok : σ.Ok (program l))
    (hbeat : Beat (program l) σ σ') : 2 ≤ σ'.last ∨ σ'.shared.waiters = 0 := by
  rcases h.early with htwo | hzero
  · exact Or.inl (le_trans htwo hbeat.last_le)
  · rcases hc.waiters_kept hok hbeat with hsame | hzero' | ⟨t, r, q, hon, hpos, -⟩
    · exact Or.inr (hsame.trans hzero)
    · exact Or.inr hzero'
    · obtain ⟨hone, hle⟩ := hok.running t hon
      have hthree := (hc.is_rider hone hle hpos).1
      exact Or.inl (le_trans (by decide) (le_trans hthree (le_trans hle hbeat.last_le)))

theorem Attentive.opened_step (h : Attentive σ) (hc : Cast l σ) (hok : σ.Ok (program l))
    (hbeat : Beat (program l) σ σ') (hopen : isOpened (σ'.pos 2) = true) :
    σ'.shared.state = .opened := by
  cases hc.post_beat hok hbeat with
  | stays hpos hshared =>
    rw [hpos] at hopen
    by_cases hon : σ.on = some 2
    · rw [hshared hon]
      exact h.opened hopen
    · exact (congrArg (·.2.2) (hc.cabin_kept hok hbeat hon)).trans (h.opened hopen)
  | starts _ hpos =>
    rw [hpos] at hopen
    cases hopen
  | goes o o' q q' hon hpos hpos' hadv =>
    rw [hpos'] at hopen
    rcases (post_waiters hadv).2.2 hopen with hopened | ⟨hbefore, hsame⟩
    · exact hopened
    · exact hsame.trans (h.opened (hpos ▸ hbefore))

theorem Attentive.deciding_step (h : Attentive σ) (ho : Orderly l σ) (hok : σ.Ok (program l))
    (hbeat : Beat (program l) σ σ') (hapart : GoesOn σ σ' → CallsApart σ)
    (hdeciding : isDeciding (σ'.pos 2) = true) : σ'.shared.waiters = 0 := by
  cases ho.cast.post_beat hok hbeat with
  | stays hpos =>
    rw [hpos] at hdeciding
    rcases ho.cast.waiters_kept hok hbeat with hsame | hzero |
      ⟨t, r, q, hon, hplace, hgoes, rfl | rfl⟩
    · exact hsame.trans (h.deciding hdeciding)
    · exact hzero
    · exact absurd hdeciding (by simp [hapart hgoes t hon (by rw [hplace]; rfl)])
    · have hvisits := ho.served.visits t (Or.inl hon) (by rw [hplace]; exact Option.some_ne_none _)
      exact absurd hdeciding (by simp [not_deciding hvisits])
  | starts hlast hpos hshared =>
    rw [hshared]
    refine h.early.resolve_left ?_
    rw [hlast]
    decide
  | goes o o' q q' hon hpos hpos' hadv =>
    rw [hpos'] at hdeciding
    obtain ⟨hsame, hbefore, -⟩ := post_waiters hadv
    rcases hbefore hdeciding with hdec | hzero
    · exact hsame.trans (h.deciding (hpos ▸ hdec))
    · exact hsame.trans hzero

theorem calling_ended (h : Ended (o, .rider r q)) : isCalling (o, .rider r q) = true := by
  rcases h with hend | ⟨_, hend⟩
  · cases hend
  · cases hend
    rfl

/-- The elevator falls asleep when no rider can run that has begun its call. -/
theorem Attentive.falls_asleep (h : Attentive σ) (ho : Orderly l σ) (hok : σ.Ok (program l))
    (hl : AllValid l) (hbeat : Beat (program l) σ σ') (hon : σ.on = some 2)
    (hpos : σ.pos 2 = (some (.tWait elvWait none), place)) (hpos' : σ'.pos 2 = (none, place))
    (hstopped : σ'.shared.state = .stopped) :
    σ'.shared.waiters = 0 ∧ ∀ u, 3 ≤ u → σ'.Awake u → isCalling (σ'.pos u) = true := by
  have hshared : σ'.shared = σ.shared := by
    cases ho.cast.post_beat hok hbeat with
    | stays hsame hshared => exact hshared hon
    | starts _ _ hshared => exact hshared
    | goes o o' q q' _ hq _ hadv =>
      cases hpos.symm.trans hq
      exact hadv.of_call.1
  obtain ⟨o, q, hq⟩ := ho.cast.pos_post (hok.running 2 hon).2
  cases hpos.symm.trans hq
  rw [hshared] at hstopped ⊢
  have hmoving : ∀ k, isOpened (some (.tWait elvWait none), .post k) = true → k = q → False := by
    rintro k hopen rfl
    cases (h.opened (hpos ▸ hopen)).symm.trans hstopped
  have hdeciding : isDeciding (σ.pos 2) = true ∧ isSignalled (σ.pos 2) = false := by
    rw [hpos]
    cases pending_post hok hpos with
    | firstWait | sleep => exact ⟨rfl, rfl⟩
    | waitEnter | waitExit => exact absurd rfl (hmoving _ rfl)
  refine ⟨h.deciding hdeciding.1, fun u hthree hawake => ?_⟩
  obtain ⟨o', r, q', hrider⟩ := ho.cast.awake_rider hok hl hbeat hthree hawake
  rw [hrider]
  cases ho.cast.rider_wakes hok hl hbeat hawake hrider with
  | stays hbefore hu =>
    rcases ho.urgent.elevator ho.cast hok hon hbefore hthree with ⟨r', hr⟩ | hended | hsignalled
    · cases hu.symm.trans hr
      rfl
    · rw [hu] at hended
      exact calling_ended hended
    · exact absurd hsignalled (by simp [hdeciding.2])
  | goes o q hrun =>
    cases hon.symm.trans hrun
    exact absurd hthree (by decide)
  | fresh ho' hq | ended ho' hq =>
    subst ho' hq
    rfl
  | called c a p _ hsig => cases hpos.symm.trans hsig
  | released v a r' i hrun hsig =>
    cases hon.symm.trans hrun
    cases hpos.symm.trans hsig

/-- While the elevator sleeps, the riders that can run have not signalled it. -/
theorem Attentive.stays_asleep (h : Attentive σ) (ho : Orderly l σ) (hok : σ.Ok (program l))
    (hl : AllValid l) (hbeat : Beat (program l) σ σ')
    (hasleep : 2 ∈ σ.queues (.cond elvWait p)) (hasleep' : 2 ∈ σ'.queues (.cond elvWait p))
    (hstopped : σ'.shared.state = .stopped) :
    σ'.shared.waiters = 0 ∧ ∀ u, 3 ≤ u → σ'.Awake u → isCalling (σ'.pos u) = true := by
  have hon : σ.on ≠ some 2 := fun hon => hok.apart 2 hon _ hasleep
  have hstate : σ.shared.state = .stopped :=
    (congrArg (·.2.2) (ho.cast.cabin_kept hok hbeat hon)).symm.trans hstopped
  obtain ⟨hzero, hcalling⟩ := h.asleep p hasleep hstate
  refine ⟨?_, fun u hthree hawake => ?_⟩
  · rcases ho.cast.waiters_kept hok hbeat with hsame | hzero' | ⟨t, r, q, hrun, hplace, -, hq⟩
    · exact hsame.trans hzero
    · exact hzero'
    · obtain ⟨hone, hle⟩ := hok.running t hrun
      have hcall := hcalling t (ho.cast.is_rider hone hle hplace).1 (Or.inl hrun)
      rw [hplace] at hcall
      rcases hq with rfl | rfl <;> cases hcall
  · obtain ⟨o', r, q', hrider⟩ := ho.cast.awake_rider hok hl hbeat hthree hawake
    rw [hrider]
    cases ho.cast.rider_wakes hok hl hbeat hawake hrider with
    | stays hbefore hu =>
      have hcall := hcalling u hthree hbefore
      rwa [hu] at hcall
    | goes o q hrun hpos hwait hasks hadv =>
      obtain ⟨hone, hle⟩ := hok.running u hrun
      have hr := hl r (ho.cast.is_rider hone hle hpos).2.1
      have hcall := hcalling u hthree (Or.inl hrun)
      rw [hpos] at hcall
      rcases calling_advance hr hcall hstate hasks hadv with hcall' | rfl
      · exact hcall'
      · have hmoved : σ'.pos u ≠ σ.pos u := by
          rw [hpos, hrider, (Prod.mk.inj hadv.of_call.2).1]
          simp
        exact absurd hasleep' (ho.cast.wakes_elevator hok hl hbeat hrun hpos hmoved hasleep p)
    | fresh ho' hq | ended ho' hq =>
      subst ho' hq
      rfl
    | called c a p' hrun => exact absurd hrun hon
    | released v a r' i hrun hpos =>
      obtain ⟨hone, hle⟩ := hok.running v hrun
      have hcall := hcalling v (ho.cast.is_rider hone hle hpos).1 (Or.inl hrun)
      rw [hpos] at hcall
      cases hcall

theorem Attentive.beat (h : Attentive σ) (ho : Orderly l σ) (hok : σ.Ok (program l))
    (hl : AllValid l) (hbeat : Beat (program l) σ σ') (hapart : GoesOn σ σ' → CallsApart σ) :
    Attentive σ' where
  early := h.early_step ho.cast hok hbeat
  opened := h.opened_step ho.cast hok hbeat
  deciding := h.deciding_step ho hok hbeat hapart
  asleep p hasleep hstopped := by
    rcases hbeat.comes hasleep with hbefore | hcomes
    · exact h.stays_asleep ho hok hl hbeat hbefore hasleep hstopped
    · cases hcomes with
      | sleep c place hon hpos hpos' => exact h.falls_asleep ho hok hl hbeat hon hpos hpos' hstopped

/-- Where the elevator sleeps with the door closed. -/
theorem Starts.attentive (h : Starts l w₀) : Attentive w₀.stage where
  early := Or.inr (congrArg (·.shared.waiters) h.1.stage)
  opened hopen := by
    rw [h.pos] at hopen
    cases hopen
  deciding hdec := by
    rw [h.pos] at hdec
    cases hdec
  asleep p hasleep := by
    have hqueues : w₀.stage.queues = Levels.append (fun _ => []) (.ready (w₀.stage.priority 1)) 1 :=
      congrArg Stage.queues h.1.stage
    rw [hqueues] at hasleep
    rcases mem_append_iff.mp hasleep with hold | ⟨hq, -⟩
    · cases hold
    · cases hq

/-- No call is slept through in a run in which no rider counts itself while the elevator is on
its way to sleep. -/
theorem no_call_slept_through (hl : AllValid l) (h₀ : Starts l w₀)
    (hrun : Run (World.step g (program l))
      (fun tick w => EntersOwn tick w ∧ (AtStatement tick w → CallsApart w.stage)) w₀ w)
    (hrest : AtRest w.stage) : w.shared.waiters = 0 := by
  obtain ⟨-, -, hattentive⟩ := h₀.1.observed id
    (I := fun w => Orderly l w.stage ∧ Attentive w.stage) program_bare hrun
    (fun _ _ _ => id) (fun _ _ hok => hok.1) ⟨h₀.orderly, h₀.attentive⟩
    (fun _ _ _ _ heq hI => heq ▸ hI)
    fun _ _ _ _ htick hok hbeat hat hI =>
      ⟨hI.1.beat hok hl hbeat, hI.2.beat hI.1 hok hl hbeat fun hgoes => htick.2 (hat hgoes)⟩
  obtain ⟨p, hasleep⟩ := hrest.blocked
  exact (hattentive.asleep p hasleep hrest.stopped).1

section Computed

/-- Nobody runs, and the ready queues of the threads that there are are empty. -/
def isQuiet (w : World Lift Place) : Bool :=
  w.sys.on = none ∧ ∀ n ≤ w.sys.gThreadID.toNat, w.sys.contents (.ready (w.sys.tcb n).priority) = []

theorem quiet_of_isQuiet (hok : w.stage.Ok (program l)) (h : isQuiet w = true) (t : Tid) :
    ¬ w.stage.Awake t := by
  obtain ⟨hon, hempty⟩ := of_decide_eq_true h
  rintro (hrun | ⟨p, hp⟩)
  · cases hon.symm.trans hrun
  · obtain ⟨hone, hle⟩ := hok.known _ t hp
    have hlevel : (w.sys.tcb t).priority = p := hok.level p t hp
    have hnone := hempty t.toNat (Int.toNat_le_toNat hle)
    rw [Int.toNat_of_nonneg (le_trans Int.one_nonneg hone), hlevel] at hnone
    have hp : t ∈ w.sys.contents (.ready p) := hp
    rw [hnone] at hp
    cases hp

end Computed

/-- One rider, which arrives before the elevator thread has begun. -/
def early : List Arrival := [.rider ⟨.employee, 1, 4⟩]

/-- One rider, which arrives after the elevator thread has begun. -/
def late : List Arrival := [.yield, .rider ⟨.employee, 1, 2⟩]

theorem valid_early : AllValid early := by
  intro r hr
  cases List.mem_singleton.mp hr
  exact ⟨by decide, by decide, by decide⟩

theorem valid_late : AllValid late := by
  intro r hr
  simp only [late, List.mem_cons, reduceCtorEq, List.not_mem_nil, or_false, false_or] at hr
  cases hr
  exact ⟨by decide, by decide, by decide⟩

/-- The elevator sleeps with the rider waiting. -/
theorem call_slept_through :
    ¬ ∀ (l : List Arrival) (w₀ w : World Lift Place), AllValid l → Starts l w₀ →
      Run (World.step .statement (program l)) EntersOwn w₀ w → AtRest w.stage →
      w.shared.waiters = 0 := by
  intro hnone
  obtain ⟨w₀, w, h₀, hrun, hgood⟩ := exists_start early .statement EntersOwn
    (List.replicate 196 .run) (fun w => isQuiet w ∧ 2 ∈ w.sys.contents (.cond elvWait 5) ∧
      w.shared.state = .stopped ∧ w.shared.waiters = 1) (by decide +kernel)
  obtain ⟨hquiet, hblocked, hstopped, hone⟩ := of_decide_eq_true hgood
  obtain ⟨hok, -⟩ := h₀.invariant valid_early hrun (I := fun _ => True)
    (fun _ _ h => ⟨h, trivial⟩) trivial
    fun _ _ _ _ (_ : True) _ _ => trivial
  have hzero := hnone early w₀ w valid_early h₀ hrun
    ⟨⟨5, hblocked⟩, hstopped, fun t _ => quiet_of_isQuiet hok hquiet t⟩
  omega

/-- The rider arrives when the elevator sleeps, is taken to its floor, and the elevator sleeps
again. -/
theorem no_call_slept_through_late :
    ∃ w₀ w : World Lift Place, Starts late w₀ ∧ w.shared.currentFloor = 2 ∧ AtRest w.stage ∧
      w.shared.waiters = 0 := by
  obtain ⟨w₀, w, h₀, hrun, hgood⟩ := exists_start late .statement
    (fun tick w => EntersOwn tick w ∧ (AtStatement tick w → CallsApart w.stage))
    (List.replicate 320 .run)
    (fun w => isQuiet w ∧ 2 ∈ w.sys.contents (.cond elvWait 5) ∧ w.shared.state = .stopped ∧
      w.shared.currentFloor = 2) (by decide +kernel)
  obtain ⟨hquiet, hblocked, hstopped, hfloor⟩ := of_decide_eq_true hgood
  obtain ⟨hok, -⟩ := h₀.invariant valid_late hrun (I := fun _ => True)
    (fun _ _ h => ⟨h.1, trivial⟩) trivial
    fun _ _ _ _ (_ : True) _ _ => trivial
  have hrest : AtRest w.stage :=
    ⟨⟨5, hblocked⟩, hstopped, fun t _ => quiet_of_isQuiet hok hquiet t⟩
  exact ⟨w₀, w, h₀, hfloor, hrest, no_call_slept_through valid_late h₀ hrun hrest⟩

end Attentive

end UserThreads.Elevator
