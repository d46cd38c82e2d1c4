import UserThreads.ElevatorBursts

/-!
A visit of the elevator to a floor. A rider that the elevator has signalled is being served
until it signals back; the elevator is in the visit all that time, and it serves one rider
at a time.
-/
namespace UserThreads.Elevator

open Threads Runs Tallies MultilevelQueue

variable {l : List Arrival} {s s' : Lift} {place : Place} {x y : Option Op × Place}
  {σ σ' : Stage Lift Place} {t u v : Tid} {c : CondId} {p : ℤ} {r : Rider} {o : Option Op} {f : ℤ}

/-- What only the elevator changes. -/
def Lift.cabin (g : Lift) : ℤ × Option Dir × Door := (g.currentFloor, g.direction, g.state)

/-- The floor at which a rider is served that can run: the start floor until it waits in the
elevator, and the end floor after that. -/
def stop : Option Op × Place → Option ℤ
  | (none, .rider r .uncountFloor) => some r.floorS
  | (_, .rider r .enter) | (_, .rider r .enterRank) => some r.floorS
  | (_, .rider r .uncountWaiter) | (_, .rider r .request) => some r.floorS
  | (_, .rider r .sigRequest) | (_, .rider r .awaitFloor) => some r.floorS
  | (some _, .rider r .leaveFloor) => some r.floorS
  | (none, .rider r .leaveFloor) => some r.floorE
  | (_, .rider r .exit) | (_, .rider r .exitRank) | (_, .rider r .uncount) => some r.floorE
  | (_, .rider r .clearStart) | (_, .rider r .clearEnd) => some r.floorE
  | (_, .rider r .isVacant) | (_, .rider r (.broadcast _)) => some r.floorE
  | (_, .rider r .sigExit) | (_, .rider r .exited) => some r.floorE
  | _ => none

/-- The elevator has signalled a rider of this visit. -/
def isVisiting : Option Op × Place → Bool
  | (none, .post (.waitEnter ..)) | (none, .post (.waitExit ..)) => true
  | (_, .post (.enters ..)) | (_, .post (.exits ..)) => true
  | _ => false

/-- The elevator serves one rider at a time. -/
structure Served (σ : Stage Lift Place) : Prop where
  visits : ∀ u, σ.Awake u → stop (σ.pos u) ≠ none → isVisiting (σ.pos 2) = true
  alone : ∀ u v, σ.Awake u → σ.Awake v → stop (σ.pos u) ≠ none → stop (σ.pos v) ≠ none → u = v

theorem stop_ended (h : Ended x) : stop x = none := by
  rcases h with rfl | ⟨r, rfl⟩ <;> rfl

theorem stop_registers (k : Rank) : stop (none, .rider r k.registers) = none := by
  cases k <;> rfl

/-- A rider is not served because it goes on, unless it wakes up. -/
theorem stop_advance {q q' : Stand} {o' : Option Op} (hr : r.Valid)
    (hwait : ∀ c, o ≠ some (.tWait c none))
    (hasks : ∀ op, o = some op → Asks r op q)
    (hadv : Advance (fun g => rider g r) s (o, q) s' (o', q'))
    (hy : stop (o', .rider r q') = some f) : stop (o, .rider r q) = some f := by
  cases hadv with
  | ret op =>
    cases hasks op rfl with
    | awaitEmpty | await | awaitFloor => exact absurd rfl (hwait _)
    | sigElevator | exited => cases hy
    | sigRequest | broadcast | sigExit => exact hy
  | call op _ _ hcode =>
    cases q with
    | broadcast i =>
      obtain rfl := broadcast_call hcode
      exact hy
    | sigRequest | awaitFloor | sigExit =>
      cases hcode
      exact hy
    | _ =>
      cases hcode
      try cases hy
  | act _ _ _ hcode =>
    cases q with
    | start =>
      have hdiffer : r.floorS < r.floorE ∨ r.floorE < r.floorS := lt_or_gt_of_ne hr.differ
      simp only [rider, if_pos hdiffer] at hcode
      cases hcode
      cases hy
    | broadcast i =>
      obtain ⟨rfl, rfl⟩ := broadcast_act hcode
      exact hy
    | isStopped | countWaiter | count | storeEnd =>
      cases hcode
      split at hy <;> cases hy
    | isEmpty =>
      cases hcode
      split at hy
      · cases hy
      · cases (stop_registers r.rank).symm.trans hy
    | leaveEmpty =>
      cases hcode
      cases (stop_registers r.rank).symm.trans hy
    | uncount | isVacant =>
      cases hcode
      split at hy <;> exact hy
    | uncountFloor | enter | enterRank | uncountWaiter | request | leaveFloor | exit | exitRank
    | clearStart | clearEnd =>
      cases hcode
      exact hy
    | _ =>
      cases hcode
      try cases hy

theorem stop_post (o : Option Op) (q : Post) : stop (o, .post q) = none := by
  cases o <;> rfl

theorem stop_opener (h : Early l x ∨ Late l x) : stop x = none := by
  rcases h with h | h <;> cases h <;> rfl

/-- Who is served is a rider. -/
theorem Cast.served (h : Cast l σ) (hle : u ≤ σ.last) (hone : 1 ≤ u)
    (hs : stop (σ.pos u) = some f) : 3 ≤ u := by
  rcases tid_cases hone with rfl | rfl | hthree
  · cases (stop_opener h.pos_opener).symm.trans hs
  · obtain ⟨o, q, hq⟩ := h.pos_post hle
    rw [hq] at hs
    cases (stop_post o q).symm.trans hs
  · exact hthree

theorem storeStart_cabin (g : Lift) (k : Rank) (n : ℤ) : (g.storeStart k n).cabin = g.cabin := by
  cases k <;> rfl

theorem storeEnd_cabin (g : Lift) (k : Rank) (n : ℤ) : (g.storeEnd k n).cabin = g.cabin := by
  cases k <;> rfl

theorem rider_cabin {q : Stand} {z : Option Op × Stand}
    (h : Advance (fun g => rider g r) s (o, q) s' z) : s'.cabin = s.cabin := by
  cases h with
  | ret | call => rfl
  | act _ next _ hcode =>
    cases q with
    | broadcast i =>
      obtain ⟨rfl, rfl⟩ := broadcast_act hcode
      rfl
    | storeStart | clearStart =>
      cases hcode
      exact storeStart_cabin ..
    | storeEnd | clearEnd =>
      cases hcode
      exact storeEnd_cabin ..
    | _ =>
      cases hcode
      try rfl

/-- The cabin stays as it is while the elevator does not run. -/
theorem Cast.cabin_kept (h : Cast l σ) (hok : σ.Ok (program l)) (hbeat : Beat (program l) σ σ')
    (hon : σ.on ≠ some 2) : σ'.shared.cabin = σ.shared.cabin := by
  cases h.shared_beat hok hbeat with
  | same hshared => rw [hshared]
  | cleared _ hshared =>
    rw [hshared]
    rfl
  | post _ _ _ _ hon' => exact absurd hon' hon
  | rider t r o o' q q' _ _ _ _ _ _ hadv => exact rider_cabin hadv

/-- The elevator in the visit has signalled, and does nothing but go to sleep. -/
theorem signalled_visiting {q : Post} (h : isSignalled (o, .post q) = true)
    (hadv : Advance (program l).code s (o, .post q) s' y) :
    isVisiting y = true ∧ s' = s := by
  cases o with
  | none =>
    cases q <;> cases h <;> cases hadv <;> rename_i hcode <;> cases hcode <;> exact ⟨rfl, rfl⟩
  | some op => cases q <;> cases h <;> cases hadv <;> exact ⟨rfl, rfl⟩

/-- While a rider is served the elevator stays in the visit, at its floor. -/
theorem visiting_kept (h : Urgent σ) (hc : Cast l σ) (hok : σ.Ok (program l))
    (hbeat : Beat (program l) σ σ') (hawake : σ.Awake u) (hs : stop (σ.pos u) = some f)
    (hv : isVisiting (σ.pos 2) = true) :
    isVisiting (σ'.pos 2) = true ∧ σ'.shared.cabin = σ.shared.cabin := by
  obtain ⟨hone, hle⟩ := Awake.forked hok hawake
  have hthree := hc.served hle hone hs
  have htwo : 2 ≤ σ.last := le_trans (by decide) (le_trans hthree hle)
  by_cases hon : σ.on = some 2
  · have hsignalled : isSignalled (σ.pos 2) = true := by
      rcases h.elevator hc hok hon hawake hthree with ⟨r, hr⟩ | hended | hsignalled
      · rw [hr] at hs
        cases hs
      · rw [stop_ended hended] at hs
        cases hs
      · exact hsignalled
    cases hbeat.shifts with
    | stay hshared hpos => exact ⟨hpos ▸ hv, by rw [hshared]⟩
    | fork t f v p place hon' hplace =>
      cases hon.symm.trans hon'
      cases hc.forks hok hon hplace
    | advance t y hon' hadv hpos =>
      cases hon.symm.trans hon'
      obtain ⟨o, q, hq⟩ := hc.pos_post htwo
      rw [hq] at hadv hsignalled
      obtain ⟨hy, hshared⟩ := signalled_visiting hsignalled hadv
      rw [hpos, Function.update_self, hshared]
      exact ⟨hy, rfl⟩
  · rw [hbeat.pos_kept htwo hon]
    exact ⟨hv, hc.cabin_kept hok hbeat hon⟩

/-- The elevator signals the rider `u`, which is then served at the floor `f`. -/
inductive Begins (l : List Arrival) (σ σ' : Stage Lift Place) (u : Tid) (f : ℤ) : Prop
  | signal (c : CondId) (a : AnyPtr) (q : Post) (r : Rider) (w : Stand) (hon : σ.on = some 2)
      (hpos : σ.pos 2 = (some (.tSig c a none), .post q)) (hpos' : σ'.pos 2 = (none, .post q))
      (hcalls : Calls (.tSig c a none) q) (hu : σ.pos u = (none, .rider r w)) (hr : .rider r ∈ l)
      (hasks : Asks r (.tWait c none) w) (hs : stop (σ.pos u) = some f)
      (hshared : σ'.shared = σ.shared) (hrest : ∀ v, σ'.Awake v → v = u ∨ σ.Awake v) :
      Begins l σ σ' u f

theorem stop_rider (h : stop x = some f) : ∃ o r q, x = (o, .rider r q) := by
  obtain ⟨o, place⟩ := x
  cases place with
  | rider r q => exact ⟨o, r, q, rfl⟩
  | _ => cases o <;> cases h

/-- Who is served after a beat was so before, or the elevator has just signalled it. -/
theorem served_cases (hc : Cast l σ) (hok : σ.Ok (program l)) (hl : AllValid l)
    (hbeat : Beat (program l) σ σ') (hawake : σ'.Awake u) (hs : stop (σ'.pos u) = some f) :
    σ.Awake u ∧ stop (σ.pos u) = some f ∨ Begins l σ σ' u f := by
  obtain ⟨o', r, q', hpos'⟩ := stop_rider hs
  rw [hpos'] at hs
  cases hc.rider_wakes hok hl hbeat hawake hpos' with
  | stays hb hpos =>
    left
    rw [hpos]
    exact ⟨hb, hs⟩
  | goes o q hon hpos hwait hasks hadv =>
    obtain ⟨hone, hle⟩ := hok.running u hon
    have hr := hl r (hc.is_rider hone hle hpos).2.1
    left
    rw [hpos]
    exact ⟨Or.inl hon, stop_advance hr hwait hasks hadv hs⟩
  | fresh ho hq | ended ho hq | released _ _ _ _ _ _ ho hq =>
    subst ho hq
    cases hs
  | called c a p hon hpos hpos'' hcalls hr hu ho hasks hshared hrest =>
    subst ho
    right
    exact .signal c a p r q' hon hpos hpos'' hcalls hu hr hasks (by rw [hu]; exact hs) hshared hrest

/-- When the elevator is about to signal, nobody is served. -/
theorem Begins.nobody (h : Begins l σ σ' u f) (hu : Urgent σ) (hc : Cast l σ)
    (hok : σ.Ok (program l)) {w : Tid} {i : ℤ} (hw : σ.Awake w) : stop (σ.pos w) ≠ some i := by
  obtain ⟨c, a, q, r, w', hon, hpos, -, hcalls⟩ := h
  intro hs
  obtain ⟨hone, hle⟩ := Awake.forked hok hw
  rcases hu.elevator hc hok hon hw (hc.served hle hone hs) with ⟨r, hr⟩ | hended | hsignalled
  · rw [hr] at hs
    cases hs
  · rw [stop_ended hended] at hs
    cases hs
  · rw [hpos] at hsignalled
    cases hcalls <;> cases hsignalled

theorem Served.beat (h : Served σ) (hu : Urgent σ) (hc : Cast l σ) (hok : σ.Ok (program l))
    (hl : AllValid l) (hbeat : Beat (program l) σ σ') : Served σ' where
  visits u hawake hs := by
    obtain ⟨f, hs⟩ := Option.ne_none_iff_exists'.mp hs
    rcases served_cases hc hok hl hbeat hawake hs with
      ⟨hbefore, hs⟩ | ⟨c, a, q, r, w, hon, hpos, hpos', hcalls⟩
    · exact (visiting_kept hu hc hok hbeat hbefore hs (h.visits u hbefore (by simp [hs]))).1
    · rw [hpos']
      cases hcalls <;> rfl
  alone u v hawake hawake' hs hs' := by
    obtain ⟨f, hs⟩ := Option.ne_none_iff_exists'.mp hs
    obtain ⟨i, hs'⟩ := Option.ne_none_iff_exists'.mp hs'
    rcases served_cases hc hok hl hbeat hawake hs with ⟨hb, hf⟩ | hbegins <;>
      rcases served_cases hc hok hl hbeat hawake' hs' with ⟨hb', hi⟩ | hbegins'
    · exact h.alone u v hb hb' (by simp [hf]) (by simp [hi])
    · exact absurd hf (hbegins'.nobody hu hc hok hb)
    · exact absurd hi (hbegins.nobody hu hc hok hb')
    · obtain ⟨c, a, q, r, w, -, -, -, -, -, -, -, -, -, hrest⟩ := hbegins
      rcases hrest v hawake' with hvu | hb'
      · exact hvu.symm
      · obtain ⟨c, a, q, r, w, -, -, -, -, -, -, -, hi, -⟩ := id hbegins'
        exact absurd hi (hbegins'.nobody hu hc hok hb')

/-- What holds of every stage of the elevator. -/
structure Orderly (l : List Arrival) (σ : Stage Lift Place) : Prop where
  cast : Cast l σ
  urgent : Urgent σ
  served : Served σ

theorem Orderly.beat (h : Orderly l σ) (hok : σ.Ok (program l)) (hl : AllValid l)
    (hbeat : Beat (program l) σ σ') : Orderly l σ' where
  cast := h.cast.beat hok hl hbeat
  urgent := h.urgent.beat h.cast hok hl hbeat
  served := h.served.beat h.urgent h.cast hok hl hbeat

variable {w₀ w : World Lift Place} {g : Grain}

theorem Starts.pos (h : Starts l w₀) (t : Tid) : w₀.stage.pos t = (none, .create 35) :=
  congrArg (fun σ => σ.pos t) h.1.stage

theorem Starts.orderly (h : Starts l w₀) : Orderly l w₀.stage := by
  have hon : w₀.stage.on = none := congrArg Stage.on h.1.stage
  have hlast : w₀.stage.last = 1 := congrArg Stage.last h.1.stage
  have hover : w₀.stage.finished = ∅ := congrArg Stage.finished h.1.stage
  have hnot : ¬ 2 ≤ w₀.stage.last := by
    rw [hlast]
    decide
  have hstop : ∀ t, stop (w₀.stage.pos t) = none := fun t => by rw [h.pos]; rfl
  refine ⟨⟨Or.inl ⟨hlast, h.pos 1 ▸ .create 35⟩, fun htwo => absurd htwo hnot,
    fun t hthree hle => ?_, h.2, fun htwo => absurd htwo hnot, ?_, fun t _ => h.pos t⟩, ?_,
    ⟨?_, ?_⟩⟩
  · exact absurd (le_trans (by decide) (le_trans hthree hle)) hnot
  · simp [hover]
  · intro v u p hv
    cases hon.symm.trans hv
  · intro u _ hs
    exact absurd (hstop u) hs
  · intro u v _ _ hs
    exact absurd (hstop u) hs

/-- An invariant of the orderly stages is one of the runs. -/
theorem Starts.invariant {ok : Tick → World Lift Place → Prop} {cond I : Stage Lift Place → Prop}
    (h : Starts l w₀) (hl : AllValid l) (hrun : Run (World.step g (program l)) ok w₀ w)
    (hok : ∀ tick w, ok tick w → EntersOwn tick w ∧ cond w.stage) (hstart : I w₀.stage)
    (hbeat : ∀ σ σ' : Stage Lift Place, σ.Ok (program l) → Orderly l σ → cond σ →
      Beat (program l) σ σ' → I σ → I σ') :
    w.stage.Ok (program l) ∧ Orderly l w.stage ∧ I w.stage :=
  h.1.stage_invariant program_bare hrun hok (I := fun σ => Orderly l σ ∧ I σ)
    ⟨h.orderly, hstart⟩ fun σ σ' hstage hcond hmove hI =>
      ⟨hI.1.beat hstage hl hmove, hbeat σ σ' hstage hI.1 hcond hmove hI.2⟩

end UserThreads.Elevator
