import UserThreads.ElevatorCounts

/-!
The floors of the elevator. It stays between the lowest and the highest floor, and a rider is
served at the floor where the elevator is. The elevator turns down at floor 1 for no request:
this rests on what it reads of the request of the president, which stores its two floors in
two statements, but the elevator does not run between them.
-/
namespace UserThreads.Elevator

open Threads Runs Tallies MultilevelQueue

variable {l : List Arrival} {s s' : Lift} {place : Place} {x y : Option Op × Place}
  {σ σ' : Stage Lift Place} {t u v : Tid} {r : Rider} {o : Option Op} {f : ℤ} {k : Rank}

section Wish

/-! The request of the president. -/

/-- The shared variables have not been set yet. -/
def isBare : Option Op × Place → Bool
  | (_, .create _) | (_, .clear) => true
  | _ => false

/-- The rider has stored its start floor. -/
def Stand.isStored : Stand → Bool
  | .start | .isStopped | .sigElevator | .countFloor | .countWaiter | .isEmpty => false
  | .joinEmpty | .awaitEmpty | .leaveEmpty | .count | .storeStart => false
  | _ => true

/-- The president that a thread is. -/
structure President (σ : Stage Lift Place) (u : Tid) (o : Option Op) (r : Rider) (q : Stand) :
    Prop where
  forked : 1 ≤ u ∧ u ≤ σ.last
  pos : σ.pos u = (o, .rider r q)
  rank : r.rank = .president

/-- The president has stored its start floor. -/
def HasAsked (σ : Stage Lift Place) : Prop := ∃ u o r q, President σ u o r q ∧ q.isStored = true

/-- The elevator is letting the president out. -/
def isDropping : Option Op × Place → Bool
  | (_, .post (.openDoor _ _ _ k)) | (_, .post (.enters _ _ _ _ k)) => k = .droppedOff
  | (_, .post (.sigEnter _ _ _ _ k)) | (_, .post (.waitEnter _ _ _ _ k)) => k = .droppedOff
  | (_, .post (.exits _ _ k)) | (_, .post (.sigExit _ _ k)) => k = .droppedOff
  | (_, .post (.waitExit _ _ k)) | (_, .post (.closeDoor k)) => k = .droppedOff
  | (_, .post .clearEnd) => true
  | _ => false

/-- The floors of the president's request. A start floor without an end floor is one that the
president is just storing. -/
structure Wish (σ : Stage Lift Place) : Prop where
  start : σ.shared.reqSFP = -1 ∨ 1 ≤ σ.shared.reqSFP
  asked : σ.shared.reqSFP ≠ -1 ∨ σ.shared.reqEFP ≠ -1 → HasAsked σ
  goal : σ.shared.reqSFP ≠ -1 → 1 ≤ σ.shared.reqEFP ∨
    ∃ u r, President σ u none r .storeEnd ∧ σ.Awake u
  leaving : ∀ u r, President σ u none r .clearEnd → σ.shared.reqSFP = -1
  dropping : isDropping (σ.pos 2) = true → σ.shared.reqSFP = -1 ∧ HasAsked σ

/-- The elevator takes the start floor off after it has let the president in, and the end floor
after it has let the president out. -/
theorem post_requests {q q' : Post} {o' : Option Op}
    (h : Advance elevatorThread s (o, q) s' (o', q')) :
    (s'.reqSFP = s.reqSFP ∨ s'.reqSFP = -1) ∧
      (s'.reqEFP = s.reqEFP ∨ isDropping (o, .post q) = true) ∧
      (isDropping (o', .post q') = true → isDropping (o, .post q) = true ∨
        (∃ d, (o, q) = (none, .isArrived d)) ∧ s.reqSFP = -1 ∧ s.currentFloor = s.reqEFP) := by
  cases h with
  | ret op =>
    refine ⟨Or.inl rfl, Or.inl rfl, fun h => Or.inl ?_⟩
    cases q <;> exact h
  | call op _ _ hcode =>
    refine ⟨Or.inl rfl, Or.inl rfl, fun h => Or.inl ?_⟩
    cases q with
    | yields d n => cases n <;> cases hcode <;> cases h
    | isEdge d => cases d <;> cases hcode
    | _ => cases hcode <;> exact h
  | act _ next _ hcode =>
    cases q with
    | yields d n => cases n <;> cases hcode
    | isEdge d =>
      cases d <;> (injection hcode with hs hnext; split at hnext <;> subst hs hnext)
      all_goals exact ⟨Or.inl rfl, Or.inl rfl, fun h => Bool.noConfusion h⟩
    | firstWait | sigEnter | waitEnter | sigExit | waitExit | sleep => cases hcode
    | clearStart d =>
      cases hcode
      exact ⟨Or.inr rfl, Or.inl rfl, fun h => Bool.noConfusion h⟩
    | clearEnd =>
      cases hcode
      exact ⟨Or.inl rfl, Or.inr rfl, fun h => Bool.noConfusion h⟩
    | isArrived d =>
      injection hcode with hs hnext
      split at hnext <;> rename_i harrived <;> subst hs hnext
      · exact ⟨Or.inl rfl, Or.inl rfl, fun _ => Or.inr ⟨⟨d, rfl⟩, harrived⟩⟩
      · exact ⟨Or.inl rfl, Or.inl rfl, fun h => Bool.noConfusion h⟩
    | _ =>
      injection hcode with hs hnext
      try (repeat' split at hnext)
      all_goals subst hs hnext
      all_goals exact ⟨Or.inl rfl, Or.inl rfl, Or.inl⟩

/-- The president stores its floors one after the other, and takes them off so. -/
theorem rider_requests {q q' : Stand} {o' : Option Op}
    (h : Advance (fun g => rider g r) s (o, q) s' (o', q')) :
    (s'.reqSFP = s.reqSFP ∨ s'.reqSFP = -1 ∨ r.rank = .president ∧ (o, q) = (none, .storeStart) ∧
      (o', q') = (none, .storeEnd) ∧ s'.reqSFP = r.floorS) ∧
    (s'.reqEFP = s.reqEFP ∨ r.rank = .president ∧ (o, q) = (none, .clearEnd) ∨
      r.rank = .president ∧ (o, q) = (none, .storeEnd) ∧ s'.reqEFP = r.floorE) ∧
    (r.rank = .president → q.isStored = true → q'.isStored = true) ∧
    ((o', q') = (none, .clearEnd) → r.rank = .president → q = .clearEnd ∨ s'.reqSFP = -1) := by
  cases h with
  | ret op =>
    refine ⟨Or.inl rfl, Or.inl rfl, fun _ => id, fun heq _ => Or.inl ?_⟩
    cases heq
    rfl
  | call op _ _ hcode =>
    refine ⟨Or.inl rfl, Or.inl rfl, fun _ => ?_, fun heq => ?_⟩
    · cases q with
      | broadcast i =>
        obtain rfl := broadcast_call hcode
        exact id
      | _ => cases hcode <;> exact id
    · cases heq
  | act _ next _ hcode =>
    cases q with
    | broadcast i =>
      obtain ⟨rfl, rfl⟩ := broadcast_act hcode
      exact ⟨Or.inl rfl, Or.inl rfl, fun _ => id, fun heq => by cases heq⟩
    | sigElevator | awaitEmpty | await | sigRequest | awaitFloor | sigExit | exited | gone =>
      cases hcode
    | storeStart =>
      cases hcode
      cases hk : r.rank
      · exact ⟨Or.inr (Or.inr ⟨rfl, rfl, rfl, rfl⟩), Or.inl rfl, fun _ _ => rfl,
          fun heq => by cases heq⟩
      · exact ⟨Or.inl rfl, Or.inl rfl, fun _ _ => rfl, fun heq => by cases heq⟩
      · exact ⟨Or.inl rfl, Or.inl rfl, fun _ _ => rfl, fun heq => by cases heq⟩
    | storeEnd =>
      cases hcode
      cases hk : r.rank
      · exact ⟨Or.inl rfl, Or.inr (Or.inr ⟨rfl, rfl, rfl⟩), fun _ _ => rfl, fun heq => by cases heq⟩
      · exact ⟨Or.inl rfl, Or.inl rfl, fun h => (by cases h), fun heq => by cases heq⟩
      · exact ⟨Or.inl rfl, Or.inl rfl, fun h => (by cases h), fun heq => by cases heq⟩
    | clearStart =>
      cases hcode
      cases hk : r.rank
      · exact ⟨Or.inr (Or.inl rfl), Or.inl rfl, fun _ _ => rfl, fun _ _ => Or.inr rfl⟩
      · exact ⟨Or.inl rfl, Or.inl rfl, fun _ _ => rfl, fun _ h => (by cases h)⟩
      · exact ⟨Or.inl rfl, Or.inl rfl, fun _ _ => rfl, fun _ h => (by cases h)⟩
    | clearEnd =>
      cases hcode
      cases hk : r.rank
      · exact ⟨Or.inl rfl, Or.inr (Or.inl ⟨rfl, rfl⟩), fun _ _ => rfl, fun heq => by cases heq⟩
      · exact ⟨Or.inl rfl, Or.inl rfl, fun _ _ => rfl, fun heq => by cases heq⟩
      · exact ⟨Or.inl rfl, Or.inl rfl, fun _ _ => rfl, fun heq => by cases heq⟩
    | leaveEmpty =>
      cases hcode
      refine ⟨Or.inl rfl, Or.inl rfl, fun _ h => Bool.noConfusion h, fun heq => ?_⟩
      cases hk : r.rank <;> rw [hk] at heq <;> cases heq
    | isEmpty =>
      injection hcode with hs hnext
      split at hnext <;> subst hs hnext
      · exact ⟨Or.inl rfl, Or.inl rfl, fun _ h => Bool.noConfusion h, fun heq => by cases heq⟩
      · refine ⟨Or.inl rfl, Or.inl rfl, fun _ h => Bool.noConfusion h, fun heq => ?_⟩
        cases hk : r.rank <;> rw [hk] at heq <;> cases heq
    | uncount =>
      injection hcode with hs hnext
      split at hnext <;> subst hs hnext <;>
        exact ⟨Or.inl rfl, Or.inl rfl, fun _ _ => rfl, fun heq => by cases heq⟩
    | _ =>
      injection hcode with hs hnext
      try (repeat' split at hnext)
      all_goals subst hs hnext
      all_goals first
        | exact ⟨Or.inl rfl, Or.inl rfl, fun _ h => h, fun heq => by cases heq⟩
        | exact ⟨Or.inl rfl, Or.inl rfl, fun _ h => Bool.noConfusion h, fun heq => by cases heq⟩

theorem storeEnd_goal {z : Option Op × Stand}
    (h : Advance (fun g => rider g r) s (none, .storeEnd) s' z) (hr : r.rank = .president) :
    s'.reqEFP = r.floorE := by
  cases h with
  | call _ _ _ hcode => cases hcode
  | act _ _ _ hcode =>
    cases hcode
    rw [hr]
    rfl

theorem clearEnd_goes_on {z : Option Op × Stand}
    (h : Advance (fun g => rider g r) s (none, .clearEnd) s' z) : z = (none, .isVacant) := by
  cases h with
  | call _ _ _ hcode => cases hcode
  | act _ _ _ hcode =>
    cases hcode
    rfl

/-- A president stays one, and has asked for good. -/
theorem President.beat {q : Stand} (h : President σ u o r q) (hc : Cast l σ)
    (hok : σ.Ok (program l)) (hbeat : Beat (program l) σ σ') :
    ∃ o' q', President σ' u o' r q' ∧ (q.isStored = true → q'.isStored = true) := by
  obtain ⟨⟨hone, hle⟩, hpos, hrank⟩ := h
  have hforked : 1 ≤ u ∧ u ≤ σ'.last := ⟨hone, le_trans hle hbeat.last_le⟩
  rcases hc.rider_beat hok hbeat hone hle hpos with hsame | ⟨o', q', -, hpos', hadv⟩
  · exact ⟨o, q, ⟨hforked, hsame.trans hpos, hrank⟩, id⟩
  · exact ⟨o', q', ⟨hforked, hpos', hrank⟩, (rider_requests hadv).2.2.1 hrank⟩

theorem HasAsked.beat (h : HasAsked σ) (hc : Cast l σ) (hok : σ.Ok (program l))
    (hbeat : Beat (program l) σ σ') : HasAsked σ' := by
  obtain ⟨u, o, r, q, hpresident, hstored⟩ := h
  obtain ⟨o', q', hpresident', hkept⟩ := hpresident.beat hc hok hbeat
  exact ⟨u, o', r, q', hpresident', hkept hstored⟩

/-- The president has not asked while it has its start floor to store. -/
theorem HasAsked.not_storeStart (h : HasAsked σ) (hn : Numbered l σ) (hl : Admitted l)
    (hpresident : President σ u o r .storeStart) : False := by
  obtain ⟨v, o', r', q, hv, hstored⟩ := h
  obtain rfl := hn.president hl hv.forked.1 hv.forked.2 hv.pos hv.rank hpresident.forked.1
    hpresident.forked.2 hpresident.pos hpresident.rank
  cases hv.pos.symm.trans hpresident.pos
  cases hstored

theorem not_over {a : Option Op × Place} (hc : Cast l σ) (hpos : σ.pos u = a) (hnot : ¬ Ended a) :
    u ∉ σ.finished := fun hover => hnot (hpos ▸ hc.finished u hover)

section Step

variable (h : Wish σ) (hn : Numbered l σ) (hl : Admitted l) (hc : Cast l σ)
  (hok : σ.Ok (program l)) (hbeat : Beat (program l) σ σ') (hbare : isBare (σ.pos 1) = false)

include h hl hc hok hbeat hbare

theorem Wish.start_step : σ'.shared.reqSFP = -1 ∨ 1 ≤ σ'.shared.reqSFP := by
  cases hc.shared_beat hok hbeat with
  | same hshared => exact hshared ▸ h.start
  | cleared hpos =>
    rw [hpos] at hbare
    cases hbare
  | post o o' q q' _ _ _ hadv =>
    rcases (post_requests hadv).1 with hsame | hnone
    · exact hsame ▸ h.start
    · exact Or.inl hnone
  | rider t r o o' q q' _ _ _ hr _ _ hadv =>
    rcases (rider_requests hadv).1 with hsame | hnone | ⟨-, -, -, hfloor⟩
    · exact hsame ▸ h.start
    · exact Or.inl hnone
    · exact Or.inr (hfloor ▸ (hl.valid r hr).start.1)

omit hl in
theorem Wish.asked_step (hasked : σ'.shared.reqSFP ≠ -1 ∨ σ'.shared.reqEFP ≠ -1) :
    HasAsked σ' := by
  have hkept : σ.shared.reqSFP ≠ -1 ∨ σ.shared.reqEFP ≠ -1 → HasAsked σ' :=
    fun hold => (h.asked hold).beat hc hok hbeat
  cases hc.shared_beat hok hbeat with
  | same hshared => exact hkept (hshared ▸ hasked)
  | cleared hpos =>
    rw [hpos] at hbare
    cases hbare
  | post o o' q q' _ hpos _ hadv =>
    obtain ⟨hstart, hgoal, -⟩ := post_requests hadv
    rcases hgoal with hsame' | hdropping
    · refine hkept (hasked.imp (fun hne => ?_) (hsame' ▸ ·))
      rcases hstart with hsame | hnone
      · exact hsame ▸ hne
      · exact absurd hnone hne
    · exact (h.dropping (hpos ▸ hdropping)).2.beat hc hok hbeat
  | rider t r o o' q q' _ hthree hle _ hpos hpos' hadv =>
    have hone : 1 ≤ t := le_trans (by decide) hthree
    have hforked : 1 ≤ t ∧ t ≤ σ'.last := ⟨hone, le_trans hle hbeat.last_le⟩
    obtain ⟨hstart, hgoal, -⟩ := rider_requests hadv
    rcases hgoal with hsame' | ⟨hrank, heq⟩ | ⟨hrank, heq, -⟩
    · rcases hstart with hsame | hnone | ⟨hrank, -, heq, -⟩
      · exact hkept (hsame ▸ hsame' ▸ hasked)
      · exact hkept (hasked.imp (fun hne => absurd hnone hne) (hsame' ▸ ·))
      · cases heq
        exact ⟨t, none, r, .storeEnd, ⟨hforked, hpos', hrank⟩, rfl⟩
    · cases heq
      exact HasAsked.beat ⟨t, none, r, .clearEnd, ⟨⟨hone, hle⟩, hpos, hrank⟩, rfl⟩ hc hok hbeat
    · cases heq
      exact HasAsked.beat ⟨t, none, r, .storeEnd, ⟨⟨hone, hle⟩, hpos, hrank⟩, rfl⟩ hc hok hbeat

omit h hbare in
/-- A president that is storing its floors goes on with it, or has stored the end floor. -/
theorem goal_storing (hu : ∃ u r, President σ u none r .storeEnd ∧ σ.Awake u) :
    1 ≤ σ'.shared.reqEFP ∨ ∃ u r, President σ' u none r .storeEnd ∧ σ'.Awake u := by
  obtain ⟨u, r, ⟨⟨hone, hle⟩, hpos, hrank⟩, hawake⟩ := hu
  rcases hc.rider_beat hok hbeat hone hle hpos with hsame | ⟨o', q', -, hpos', hadv⟩
  · right
    refine ⟨u, r, ⟨⟨hone, le_trans hle hbeat.last_le⟩, hsame.trans hpos, hrank⟩,
      hbeat.keeps_awake hawake (congrArg Prod.fst hpos) (not_over hc hpos ?_)⟩
    rintro (heq | ⟨r', heq⟩) <;> cases heq
  · left
    rw [storeEnd_goal hadv hrank]
    exact (hl.valid r (hc.is_rider hone hle hpos).2.1).goal.1

theorem Wish.goal_step (hne : σ'.shared.reqSFP ≠ -1) : 1 ≤ σ'.shared.reqEFP ∨
    ∃ u r, President σ' u none r .storeEnd ∧ σ'.Awake u := by
  have hkept : σ.shared.reqSFP ≠ -1 → (1 ≤ σ.shared.reqEFP → 1 ≤ σ'.shared.reqEFP) →
      1 ≤ σ'.shared.reqEFP ∨ ∃ u r, President σ' u none r .storeEnd ∧ σ'.Awake u := by
    intro hold hend
    rcases h.goal hold with hgoal | hstoring
    · exact Or.inl (hend hgoal)
    · exact goal_storing hl hc hok hbeat hstoring
  cases hc.shared_beat hok hbeat with
  | same hshared => exact hkept (hshared ▸ hne) (hshared ▸ id)
  | cleared hpos =>
    rw [hpos] at hbare
    cases hbare
  | post o o' q q' _ hpos _ hadv =>
    obtain ⟨hstart, hgoal, -⟩ := post_requests hadv
    have hsame : σ'.shared.reqSFP = σ.shared.reqSFP := hstart.resolve_right hne
    rcases hgoal with hsame' | hdropping
    · exact hkept (hsame ▸ hne) (hsame' ▸ id)
    · exact absurd (h.dropping (hpos ▸ hdropping)).1 (hsame ▸ hne)
  | rider t r o o' q q' hon hthree hle hr hpos hpos' hadv =>
    have hone : 1 ≤ t := le_trans (by decide) hthree
    obtain ⟨hstart, hgoal, -⟩ := rider_requests hadv
    rcases hstart with hsame | hnone | ⟨hrank, hbefore, hafter, -⟩
    · rcases hgoal with hsame' | ⟨hrank, hbefore⟩ | ⟨-, -, hend⟩
      · exact hkept (hsame ▸ hne) (hsame' ▸ id)
      · cases hbefore
        exact absurd (h.leaving t r ⟨⟨hone, hle⟩, hpos, hrank⟩) (hsame ▸ hne)
      · exact Or.inl (hend ▸ (hl.valid r hr).goal.1)
    · exact absurd hnone hne
    · cases hbefore
      cases hafter
      refine Or.inr ⟨t, r, ⟨⟨hone, le_trans hle hbeat.last_le⟩, hpos', hrank⟩,
        hbeat.keeps_awake (Or.inl hon) (congrArg Prod.fst hpos) (not_over hc hpos ?_)⟩
      rintro (heq | ⟨r', heq⟩) <;> cases heq

include hn

theorem Wish.leaving_step (hu : President σ' u none r .clearEnd) : σ'.shared.reqSFP = -1 := by
  obtain ⟨⟨hone, hle'⟩, hpos', hrank⟩ := hu
  rcases hc.rider_before hok hl.valid hbeat hone hle' hpos' with ⟨hle, o, q, hpos⟩ | ⟨-, hstart⟩
  · rcases hc.rider_beat hok hbeat hone hle hpos with hsame | ⟨o', q', hon, hpos'', hadv⟩
    · have hbefore : President σ u none r .clearEnd := ⟨⟨hone, hle⟩, hsame.symm.trans hpos', hrank⟩
      have hnone := h.leaving u r hbefore
      cases hc.shared_beat hok hbeat with
      | same hshared => exact hshared ▸ hnone
      | cleared hclear =>
        rw [hclear] at hbare
        cases hbare
      | post _ _ _ _ _ _ _ hadv => exact (post_requests hadv).1.elim (·.trans hnone) id
      | rider t r' _ _ _ _ _ hthree hlet _ hplace _ hadv =>
        rcases (rider_requests hadv).1 with hkept | hnone' | ⟨hrank', heq, -⟩
        · exact hkept.trans hnone
        · exact hnone'
        · cases heq
          exact (HasAsked.not_storeStart ⟨u, none, r, .clearEnd, hbefore, rfl⟩ hn hl
            ⟨⟨le_trans (by decide) hthree, hlet⟩, hplace, hrank'⟩).elim
    · cases hpos''.symm.trans hpos'
      rcases (rider_requests hadv).2.2.2 rfl hrank with rfl | hnone
      · cases o with
        | some op => cases pending_rider hok hpos
        | none => cases clearEnd_goes_on hadv
      · exact hnone
  · cases hstart

theorem Wish.dropping_step (hfloor : ∀ d, σ.pos 2 = (none, .post (.isArrived d)) →
    1 ≤ σ.shared.currentFloor) (hdropping : isDropping (σ'.pos 2) = true) :
    σ'.shared.reqSFP = -1 ∧ HasAsked σ' := by
  have hkept : σ.shared.reqSFP = -1 → HasAsked σ → σ'.shared.reqSFP = -1 ∧ HasAsked σ' := by
    intro hnone hasked
    refine ⟨?_, hasked.beat hc hok hbeat⟩
    cases hc.shared_beat hok hbeat with
    | same hshared => exact hshared ▸ hnone
    | cleared hclear =>
      rw [hclear] at hbare
      cases hbare
    | post _ _ _ _ _ _ _ hadv => exact (post_requests hadv).1.elim (·.trans hnone) id
    | rider t r' _ _ _ _ _ hthree hlet _ hplace _ hadv =>
      rcases (rider_requests hadv).1 with hsame | hnone' | ⟨hrank', heq, -⟩
      · exact hsame.trans hnone
      · exact hnone'
      · cases heq
        exact (hasked.not_storeStart hn hl
          ⟨⟨le_trans (by decide) hthree, hlet⟩, hplace, hrank'⟩).elim
  cases hc.post_beat hok hbeat with
  | stays hpos =>
    obtain ⟨hnone, hasked⟩ := h.dropping (hpos ▸ hdropping)
    exact hkept hnone hasked
  | starts _ hpos =>
    rw [hpos] at hdropping
    cases hdropping
  | goes o o' q q' _ hpos hpos' hadv =>
    rw [hpos'] at hdropping
    rcases (post_requests hadv).2.2 hdropping with hbefore | ⟨⟨d, heq⟩, hnone, hend⟩
    · obtain ⟨hnone, hasked⟩ := h.dropping (hpos ▸ hbefore)
      exact hkept hnone hasked
    · cases heq
      have hone := hfloor d hpos
      refine hkept hnone (h.asked (Or.inr fun hgoal => ?_))
      rw [hend, hgoal] at hone
      exact absurd hone (by decide)

theorem Wish.beat (hfloor : ∀ d, σ.pos 2 = (none, .post (.isArrived d)) →
    1 ≤ σ.shared.currentFloor) : Wish σ' where
  start := h.start_step hl hc hok hbeat hbare
  asked := h.asked_step hc hok hbeat hbare
  goal := h.goal_step hl hc hok hbeat hbare
  leaving _ _ := h.leaving_step hn hl hc hok hbeat hbare
  dropping := h.dropping_step hn hl hc hok hbeat hbare hfloor

end Step

end Wish

section Cabin

/-- The elevator is at a floor, and does not go down from the lowest. -/
def Inner (g : Lift) : Prop :=
  1 ≤ g.currentFloor ∧ g.currentFloor ≤ 10 ∧
    (g.direction = some .up ∨ g.direction = some .down ∧ 2 ≤ g.currentFloor)

/-- The floor and the direction when the elevator is at the place. -/
def Fits (g : Lift) : Post → Prop
  | .start | .faceUp => True
  | .firstFloor => g.direction = some .up
  | .turn d | .turnBack d => Inner g ∧ (d = .up → 2 ≤ g.currentFloor)
  | .isShut d | .move d => Inner g ∧ g.direction = some d
  | .yields .up _ | .isEdge .up =>
    g.direction = some .up ∧ 2 ≤ g.currentFloor ∧ g.currentFloor ≤ 11
  | .yields .down _ | .isEdge .down =>
    g.direction = some .down ∧ 1 ≤ g.currentFloor ∧ g.currentFloor ≤ 9
  | .back => g.direction = some .up ∧ g.currentFloor = 11
  | .isFacing .up | .bounce .up => g.direction = some .up ∧ g.currentFloor = 10
  | .isFacing .down | .bounce .down => g.direction = some .down ∧ g.currentFloor = 1
  | _ => Inner g

theorem Fits.congr {q : Post} (h : Fits s q) (hsame : s'.cabin = s.cabin) : Fits s' q := by
  obtain ⟨hfloor, hrest⟩ := Prod.mk.inj hsame
  obtain ⟨hdir, -⟩ := Prod.mk.inj hrest
  unfold Fits Inner at h ⊢
  rw [hfloor, hdir]
  exact h

/-- Each statement of `ElevatorThread` keeps the elevator between the floors. -/
theorem post_fits {q q' : Post} {o' : Option Op} (h : Fits s q)
    (hstart : s.reqSFP = -1 ∨ 1 ≤ s.reqSFP)
    (hgoal : ∀ d, (o, q) = (none, .isBack d) → s.reqSFP ≠ -1 → 1 ≤ s.reqEFP)
    (hadv : Advance elevatorThread s (o, q) s' (o', q')) : Fits s' q' := by
  cases hadv with
  | ret => exact h
  | call op _ _ hcode =>
    cases q with
    | yields d n =>
      cases d <;> cases n <;> cases hcode <;> exact h
    | isEdge d => cases d <;> cases hcode
    | _ => cases hcode <;> exact h
  | act _ _ _ hcode =>
    cases q with
    | yields d n => cases n <;> cases hcode
    | firstWait | sigEnter | waitEnter | sigExit | waitExit | sleep => cases hcode
    | start | faceUp =>
      cases hcode
      trivial
    | firstFloor =>
      cases hcode
      exact ⟨le_rfl, (show (1 : ℤ) ≤ 10 by decide), Or.inl h⟩
    | isBehind d =>
      injection hcode with hs hnext
      split at hnext <;> rename_i hbehind <;> subst hs hnext
      · refine ⟨h, ?_⟩
        rintro rfl
        have hlow := hstart.resolve_left hbehind.1
        have hlt : s.reqSFP < s.currentFloor := hbehind.2
        omega
      · exact h
    | turn d | turnBack d =>
      cases hcode
      obtain ⟨⟨hlow, hhigh, -⟩, hup⟩ := h
      cases d with
      | up => exact ⟨hlow, hhigh, Or.inr ⟨rfl, hup rfl⟩⟩
      | down => exact ⟨hlow, hhigh, Or.inl rfl⟩
    | isBack d =>
      injection hcode with hs hnext
      split at hnext <;> rename_i hback <;> subst hs hnext
      · refine ⟨h, ?_⟩
        rintro rfl
        have hlow : 1 ≤ s.reqSFP := hback.1 ▸ h.1
        have hend := hgoal .up rfl (by omega)
        have hlt : s.reqEFP < s.currentFloor := hback.2
        omega
      · exact h
    | isUpward =>
      cases hcode
      refine ⟨h, ?_⟩
      split
      · assumption
      · exact h.2.2.elim (absurd · ‹_›) And.left
    | isShut d =>
      injection hcode with hs hnext
      split at hnext <;> subst hs hnext
      · exact h.1
      · exact h
    | move d =>
      cases hcode
      obtain ⟨⟨hlow, hhigh, hdir⟩, hd⟩ := h
      cases d with
      | up =>
        refine ⟨hd, ?_, ?_⟩
        · change 2 ≤ s.currentFloor + 1
          omega
        · change s.currentFloor + 1 ≤ 11
          omega
      | down =>
        have htwo : 2 ≤ s.currentFloor := by
          rcases hdir with hup | ⟨-, htwo⟩
          · cases hup.symm.trans hd
          · exact htwo
        refine ⟨hd, ?_, ?_⟩
        · change 1 ≤ s.currentFloor - 1
          omega
        · change s.currentFloor - 1 ≤ 9
          omega
    | isEdge d =>
      cases d with
      | up =>
        obtain ⟨hd, hlow, hhigh⟩ := h
        injection hcode with hs hnext
        split at hnext <;> rename_i hedge <;> subst hs hnext
        · exact ⟨hd, hedge⟩
        · have hedge : s.currentFloor ≠ 11 := hedge
          exact ⟨by omega, by omega, Or.inl hd⟩
      | down =>
        obtain ⟨hd, hlow, hhigh⟩ := h
        injection hcode with hs hnext
        split at hnext <;> rename_i hedge <;> subst hs hnext
        · exact ⟨hd, hedge⟩
        · exact ⟨hlow, by omega, Or.inr ⟨hd, by omega⟩⟩
    | back =>
      cases hcode
      obtain ⟨hd, hfloor⟩ := h
      refine ⟨hd, ?_⟩
      change s.currentFloor - 1 = 10
      omega
    | isFacing d =>
      injection hcode with hs hnext
      split at hnext <;> rename_i hfacing <;> subst hs hnext
      · cases d <;> exact h
      · cases d <;> exact absurd h.1 hfacing
    | bounce d =>
      cases hcode
      cases d with
      | up =>
        obtain ⟨-, hfloor⟩ := h
        refine ⟨?_, ?_, Or.inr ⟨rfl, ?_⟩⟩
        · change 1 ≤ s.currentFloor
          omega
        · change s.currentFloor ≤ 10
          omega
        · change 2 ≤ s.currentFloor
          omega
      | down =>
        obtain ⟨-, hfloor⟩ := h
        refine ⟨?_, ?_, Or.inl rfl⟩
        · change 1 ≤ s.currentFloor
          omega
        · change s.currentFloor ≤ 10
          omega
    | _ =>
      injection hcode with hs hnext
      try (repeat' split at hnext)
      all_goals subst hs hnext
      all_goals exact h

/-- The elevator signals the riders of its floor. -/
def Aimed (σ : Stage Lift Place) : Prop :=
  ∀ c a q, σ.pos 2 = (some (.tSig c a none), .post q) →
    (∃ i n x d k, q = .waitEnter i n x d k ∧ c = going d σ.shared.currentFloor) ∨
      ∃ i x k, q = .waitExit i x k ∧ c = requests σ.shared.currentFloor

/-- Riders are served at the floor where the elevator is. -/
def AtStops (σ : Stage Lift Place) : Prop :=
  ∀ u f, σ.Awake u → stop (σ.pos u) = some f → σ.shared.currentFloor = f

theorem Aimed.beat (h : Aimed σ) (hc : Cast l σ) (hok : σ.Ok (program l))
    (hbeat : Beat (program l) σ σ') : Aimed σ' := by
  intro c a q hpos'
  cases hc.post_beat hok hbeat with
  | stays hpos hshared =>
    have hfloor : σ'.shared.currentFloor = σ.shared.currentFloor := by
      by_cases hon : σ.on = some 2
      · rw [hshared hon]
      · exact congrArg Prod.fst (hc.cabin_kept hok hbeat hon)
    rw [hfloor]
    exact h c a q (hpos.symm.trans hpos')
  | starts _ hpos => cases hpos.symm.trans hpos'
  | goes o o' p q' _ _ hpos hadv =>
    cases hpos.symm.trans hpos'
    generalize σ'.shared = s' at hadv ⊢
    generalize σ.shared = s at hadv
    cases hadv with
    | call _ _ _ hcode =>
      cases p with
      | yields d n => cases n <;> cases hcode
      | isEdge d => cases d <;> cases hcode
      | sigEnter i n x d k =>
        cases hcode
        exact Or.inl ⟨i, n, x, d, k, rfl, rfl⟩
      | sigExit i x k =>
        cases hcode
        exact Or.inr ⟨i, x, k, rfl, rfl⟩
      | _ => cases hcode

/-- A rider that the elevator signals has its stop at the floor of the elevator. -/
theorem Begins.stops (h : Begins l σ σ' u f) (ha : Aimed σ) (hl : AllValid l)
    (hinner : Inner σ.shared) : σ.shared.currentFloor = f := by
  obtain ⟨c, a, q, r, w, -, hpos, -, -, hu, hr, hasks, hs, -⟩ := h
  obtain ⟨hlow, hhigh, -⟩ := hinner
  obtain ⟨hs1, hs10, he1, he10⟩ := (hl r hr).bounds
  have hfloor : 0 ≤ σ.shared.currentFloor := le_trans Int.one_nonneg hlow
  rw [hu] at hs
  rcases ha c a q hpos with ⟨i, n, x, d, k, -, hc⟩ | ⟨i, x, k, -, hc⟩
  · have hlt : c < 22 := hc ▸ going_lt hhigh
    rcases asks_wait hasks with ⟨hc', -⟩ | ⟨hc', rfl⟩ | ⟨hc', -⟩
    · exact absurd (hc' ▸ hlt) (by decide)
    · cases hs
      exact (going_inj hfloor (le_trans Int.one_nonneg hs1) (hc.symm.trans hc')).2
    · have hge := requests_ge (i := r.floorE)
      rw [← hc'] at hge
      exact absurd (lt_of_le_of_lt hge hlt) (by decide)
  · have hge : 24 ≤ c := hc ▸ requests_ge
    rcases asks_wait hasks with ⟨hc', -⟩ | ⟨hc', -⟩ | ⟨hc', rfl⟩
    · exact absurd (hc' ▸ hge) (by decide)
    · have hlt := going_lt (d := r.dir) hs10
      rw [← hc'] at hlt
      exact absurd (lt_of_le_of_lt hge hlt) (by decide)
    · cases hs
      exact requests_inj hfloor (le_trans Int.one_nonneg he1) (hc.symm.trans hc')

theorem AtStops.beat (h : AtStops σ) (ha : Aimed σ) (ho : Orderly l σ) (hok : σ.Ok (program l))
    (hl : AllValid l) (hbeat : Beat (program l) σ σ')
    (hfits : ∀ o q, σ.pos 2 = (o, .post q) → Fits σ.shared q) : AtStops σ' := by
  intro u f hawake hs
  rcases served_cases ho.cast hok hl hbeat hawake hs with ⟨hbefore, hs⟩ | hbegins
  · have hvisits := ho.served.visits u hbefore (by simp [hs])
    have hcabin := (visiting_kept ho.urgent ho.cast hok hbeat hbefore hs hvisits).2
    exact (congrArg Prod.fst hcabin).trans (h u f hbefore hs)
  · have hinner : Inner σ.shared := by
      obtain ⟨c, a, q, -, -, -, hpos, -, hcalls, -⟩ := hbegins
      have hfit := hfits _ q hpos
      cases hcalls <;> exact hfit
    have hshared : σ'.shared = σ.shared := by
      obtain ⟨-, -, -, -, -, -, -, -, -, -, -, -, -, hshared, -⟩ := hbegins
      exact hshared
    rw [hshared]
    exact hbegins.stops ha hl hinner

end Cabin

section Tour

/-- What holds of the elevator's floors, with the riders of the company. -/
structure OnTour (l : List Arrival) (σ : Stage Lift Place) : Prop where
  numbered : Numbered l σ
  wish : isBare (σ.pos 1) = true ∧ σ.last = 1 ∨ isBare (σ.pos 1) = false ∧ Wish σ
  fits : ∀ o q, σ.pos 2 = (o, .post q) → Fits σ.shared q
  aimed : Aimed σ
  stops : AtStops σ

theorem late_not_bare (h : Late l x) : isBare x = false := by
  cases h <;> rfl

theorem Early.not_bare (h : Early l x) (hbare : isBare x = false)
    (hadv : Advance (program l).code s x s' y) : isBare y = false := by
  cases h with
  | create | created | clear => cases hbare
  | elevator =>
    cases hadv <;> rename_i hcode <;> cases hcode
    rfl
  | fork =>
    cases hadv
    rfl

theorem Early.bare (h : Early l x) (hbare : isBare x = true)
    (hadv : Advance (program l).code s x s' y) :
    isBare y = true ∨ y = (none, .elevator) ∧ s' = s.cleared := by
  cases h with
  | create n =>
    cases n <;> cases hadv <;> rename_i hcode <;> cases hcode <;> exact Or.inl rfl
  | created =>
    cases hadv
    exact Or.inl rfl
  | clear =>
    cases hadv <;> rename_i hcode <;> cases hcode
    exact Or.inr ⟨rfl, rfl⟩
  | elevator | fork => cases hbare

theorem not_bare_kept (hc : Cast l σ) (hok : σ.Ok (program l)) (hbeat : Beat (program l) σ σ')
    (hbare : isBare (σ.pos 1) = false) : isBare (σ'.pos 1) = false := by
  cases hbeat.shifts with
  | stay _ hpos => rwa [hpos]
  | advance t y hon hadv hpos =>
    by_cases ht : 1 = t
    · subst ht
      rw [hpos, Function.update_self]
      rcases hc.pos_opener with hearly | hlate
      · exact hearly.not_bare hbare hadv
      · exact late_not_bare (hlate.advance hadv)
    · rwa [hpos, Function.update_of_ne ht]
  | fork t f v p place hon hplace _ hpos =>
    obtain rfl := hc.forks hok hon hplace
    rw [hpos, Function.update_of_ne (ne_of_lt (lt_of_le_of_lt hok.first (lt_next _))),
      Function.update_self]
    have hopener := hc.pos_opener
    rw [hplace] at hopener
    rcases hopener with h | h <;> cases h <;> rfl

/-- The first thread sets the shared variables when there is no other. -/
theorem bare_beat (hc : Cast l σ) (hok : σ.Ok (program l)) (hbeat : Beat (program l) σ σ')
    (hbare : isBare (σ.pos 1) = true) (hlast : σ.last = 1) :
    isBare (σ'.pos 1) = true ∧ σ'.last = 1 ∨ isBare (σ'.pos 1) = false ∧ Wish σ' := by
  have hnot : ¬ 2 ≤ σ.last := by
    rw [hlast]
    decide
  have hearly : Early l (σ.pos 1) := (hc.opener.resolve_right fun h => hnot h.1).2
  cases hbeat.shifts with
  | stay _ hpos hsame => exact Or.inl ⟨hpos ▸ hbare, hsame.trans hlast⟩
  | fork t f v p place hon hplace =>
    obtain rfl := hc.forks hok hon hplace
    rw [hplace] at hearly hbare
    cases hearly
    cases hbare
  | advance t y hon hadv hpos hsame =>
    rcases on_cases hok hon with rfl | ⟨-, htwo⟩ | ⟨hthree, hle⟩
    · have hself : σ'.pos 1 = y := by rw [hpos, Function.update_self]
      have hborn : σ'.pos 2 = (none, .create 35) := by
        rw [hpos, Function.update_of_ne (by decide)]
        exact hc.unborn 2 (lt_of_not_ge hnot)
      rw [hself, hsame]
      rcases hearly.bare hbare hadv with hbare' | ⟨rfl, hcleared⟩
      · exact Or.inl ⟨hbare', hlast⟩
      · have hnone : σ'.shared.reqSFP = -1 ∧ σ'.shared.reqEFP = -1 := by
          rw [hcleared]
          exact ⟨rfl, rfl⟩
        refine Or.inr ⟨rfl, Or.inl hnone.1, fun hasked => ?_, fun hne => absurd hnone.1 hne,
          fun _ _ _ => hnone.1, fun hdropping => ?_⟩
        · exact hasked.elim (absurd hnone.1) (absurd hnone.2)
        · rw [hborn] at hdropping
          cases hdropping
    · exact absurd htwo hnot
    · exact absurd (le_trans (by decide) (le_trans hthree hle)) hnot

theorem OnTour.beat (h : OnTour l σ) (hl : Admitted l) (ho : Orderly l σ) (hok : σ.Ok (program l))
    (hbeat : Beat (program l) σ σ') : OnTour l σ' where
  numbered := h.numbered.beat ho.cast hok hbeat
  wish := by
    rcases h.wish with ⟨hbare, hlast⟩ | ⟨hbare, hwish⟩
    · exact bare_beat ho.cast hok hbeat hbare hlast
    · exact Or.inr ⟨not_bare_kept ho.cast hok hbeat hbare,
        hwish.beat h.numbered hl ho.cast hok hbeat hbare fun d hpos => (h.fits _ _ hpos).1⟩
  fits o' q' hpos' := by
    cases ho.cast.post_beat hok hbeat with
    | stays hpos hshared =>
      have hfits := h.fits o' q' (hpos.symm.trans hpos')
      by_cases hon : σ.on = some 2
      · exact hshared hon ▸ hfits
      · exact hfits.congr (ho.cast.cabin_kept hok hbeat hon)
    | starts _ hpos =>
      cases hpos.symm.trans hpos'
      trivial
    | goes o o'' q q'' hon hpos hpos'' hadv =>
      cases hpos''.symm.trans hpos'
      have htwo := (hok.running 2 hon).2
      have hwish : Wish σ := by
        rcases h.wish with ⟨-, hlast⟩ | ⟨-, hwish⟩
        · rw [hlast] at htwo
          exact absurd htwo (by decide)
        · exact hwish
      refine post_fits (h.fits o q hpos) hwish.start (fun d heq hne => ?_) hadv
      cases heq
      refine (hwish.goal hne).resolve_right ?_
      rintro ⟨u, r, hpresident, hawake⟩
      have hthree := (ho.cast.is_rider hpresident.forked.1 hpresident.forked.2 hpresident.pos).1
      rcases ho.urgent.elevator ho.cast hok hon hawake hthree with ⟨r', hr'⟩ | hended | hsignalled
      · cases hr'.symm.trans hpresident.pos
      · rw [hpresident.pos] at hended
        rcases hended with heq | ⟨r', heq⟩ <;> cases heq
      · rw [hpos] at hsignalled
        cases hsignalled
  aimed := h.aimed.beat ho.cast hok hbeat
  stops := h.stops.beat h.aimed ho hok hl.valid hbeat h.fits

variable {w₀ w : World Lift Place} {g : Grain}

theorem Starts.onTour (h : Starts l w₀) : OnTour l w₀.stage where
  numbered k := by
    have hlast : w₀.stage.last = 1 := congrArg Stage.last h.1.stage
    rw [Stage.total, hlast, tally_eq_single (t := 1) (by decide)]
    · rw [h.pos]
      rfl
    · intro u hu hne
      exact absurd (le_antisymm (mem_tids_iff.mp hu).2 (mem_tids_iff.mp hu).1) hne
  wish := Or.inl ⟨by rw [h.pos]; rfl, congrArg Stage.last h.1.stage⟩
  fits o q hpos := by cases (h.pos 2).symm.trans hpos
  aimed c a q hpos := by cases (h.pos 2).symm.trans hpos
  stops u f _ hs := by
    rw [h.pos] at hs
    cases hs

end Tour

end UserThreads.Elevator
