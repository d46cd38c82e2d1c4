import UserThreads.ElevatorCalls
import UserThreads.ElevatorFloors

/-!
The rides. A rider enters at its start floor and leaves at its end floor, the counters of the
elevator are the numbers of riders aboard whenever no rider is changing them, and no floor is
used that is not there.
-/
namespace UserThreads.Elevator

open Threads Runs Tallies MultilevelQueue

variable {l : List Arrival} {s s' : Lift} {place : Place} {x y : Option Op × Place}
  {σ σ' : Stage Lift Place} {t u v : Tid} {r : Rider} {o : Option Op} {f : ℤ} {k : Rank}
  {w₀ w : World Lift Place} {g : Grain}

section Counted

/-- The elevator has not executed `elv.numRiders = 0` yet. -/
def isStarting : Option Op × Place → Bool
  | (_, .post .start) | (_, .post .faceUp) | (_, .post .firstFloor) | (_, .post .noRiders) => true
  | _ => false

theorem weight_opener (c : Counter) (h : Early l x ∨ Late l x) : c.weight x = 0 := by
  rcases h with h | h <;> cases h <;> rfl

theorem not_starting (h : isVisiting x = true) : isStarting x = false := by
  obtain ⟨o, place⟩ := x
  cases place with
  | post q => cases o <;> cases q <;> first | rfl | cases h
  | _ => cases o <;> cases h

theorem post_starting {q q' : Post} {o' : Option Op}
    (h : Advance elevatorThread s (o, q) s' (o', q')) (hq : isStarting (o', .post q') = true) :
    isStarting (o, .post q) = true := by
  cases h with
  | ret op => cases q <;> exact hq
  | call op _ _ hcode => cases calls_of_code hcode <;> cases hq
  | act _ _ _ hcode =>
    cases q with
    | yields d n => cases n <;> cases hcode
    | isEdge d =>
      cases d <;> (injection hcode with hs hnext; split at hnext <;> subst hnext <;> cases hq)
    | firstWait | sigEnter | waitEnter | sigExit | waitExit | sleep => cases hcode
    | _ =>
      injection hcode with hs hnext
      try (repeat' split at hnext)
      all_goals subst hnext
      all_goals first | rfl | cases hq

/-- Who is aboard changes only while a rider is served. -/
theorem rider_aboard {q q' : Stand} {o' : Option Op}
    (h : Advance (fun g => rider g r) s (o, q) s' (o', q')) :
    (s'.numRiders = s.numRiders ∧ s'.riders = s.riders) ∨ stop (o, .rider r q) ≠ none := by
  cases h with
  | ret | call => exact Or.inl ⟨rfl, rfl⟩
  | act _ _ _ hcode =>
    cases q with
    | broadcast i =>
      obtain ⟨rfl, rfl⟩ := broadcast_act hcode
      exact Or.inl ⟨rfl, rfl⟩
    | sigElevator | awaitEmpty | await | sigRequest | awaitFloor | sigExit | exited | gone =>
      cases hcode
    | storeStart | clearStart =>
      cases hcode
      exact Or.inl ⟨storeStart_value .inside .., funext fun k => storeStart_value (.aboard k) ..⟩
    | storeEnd | clearEnd =>
      cases hcode
      exact Or.inl ⟨storeEnd_value .inside .., funext fun k => storeEnd_value (.aboard k) ..⟩
    | enter | enterRank | exit | exitRank => exact Or.inr (Option.some_ne_none _)
    | _ =>
      injection hcode with hs
      subst hs
      exact Or.inl ⟨rfl, rfl⟩

/-- The counters are the numbers of riders, and there are none before the elevator has begun. -/
structure Tallied (σ : Stage Lift Place) : Prop where
  counted : Counted σ
  starting : isStarting (σ.pos 2) = true → σ.shared.numRiders = 0

theorem weight_body (c : Counter) (f : ThreadFunc) (a : AnyPtr) :
    c.weight (none, (program l).body f a) = 0 := by
  unfold program
  dsimp only
  split <;> first | rfl | (cases c <;> rfl)

/-- Nobody holds a counter when the first thread sets them. -/
theorem total_alone (hc : Cast l σ) (hclear : σ.pos 1 = (none, .clear)) (c : Counter) :
    σ.total c.weight = 0 := by
  refine tally_eq_zero fun t ht => ?_
  rw [hc.lone hclear] at ht
  obtain ⟨hone, hle⟩ := mem_tids_iff.mp ht
  obtain rfl := le_antisymm hle hone
  rw [hclear]
  rfl

theorem Counted.beat (h : Tallied σ) (ho : Orderly l σ) (hok : σ.Ok (program l))
    (hl : AllValid l) (hstops : AtStops σ) (hbeat : Beat (program l) σ σ') : Counted σ' := by
  intro c
  have hkept := hbeat.shifts.conserves hok c.weight (fun s => c.value s) ?_ ?_
  · have hbefore := h.counted c
    omega
  · rintro t x y hon rfl hadv
    rcases on_cases hok hon with rfl | ⟨rfl, htwo⟩ | ⟨hthree, hle⟩
    · have hopener := ho.cast.pos_opener
      rw [weight_opener c hopener,
        weight_opener c (hopener.imp (Early.advance · hadv) (Late.advance · hadv))]
      rcases opener_shared hopener hadv with hsame | ⟨hclear, hcleared⟩
      · rw [hsame]
      · rw [hcleared, h.counted c, total_alone ho.cast hclear c]
        cases c <;> rfl
    · obtain ⟨o, q, hq⟩ := ho.cast.pos_post htwo
      rw [hq] at hadv ⊢
      obtain ⟨q', hq', hadv⟩ := advance_post hadv
      rw [show y = (y.1, .post q') from Prod.ext rfl hq']
      congr 1
      rcases post_counts hadv c with hsame | ⟨rfl, hreset⟩
      · exact hsame
      · have hnone : σ.shared.numRiders = 0 := h.starting (by rw [hq]; cases o <;> rfl)
        rw [hreset]
        cases c with
        | inside => exact hnone.symm
        | aboard | registered | bound => rfl
    · obtain ⟨o, r, q, hq, hr, -⟩ := ho.cast.pos_rider hthree hle
      rw [hq] at hadv ⊢
      obtain ⟨q', hq', hadv⟩ := advance_rider hadv
      rw [show y = (y.1, .rider r q') from Prod.ext rfl hq']
      refine rider_counts (hl r hr) hadv ?_ c
      intro heq
      cases heq
      exact hstops t _ (Or.inl hon) (by rw [hq]; rfl)
  · intro t f v p place hon hpos
    obtain rfl := ho.cast.forks hok hon hpos
    have hopener := ho.cast.pos_opener
    rw [hpos] at hopener
    rw [weight_opener c hopener, weight_body]
    rcases hopener with h | h <;> cases h <;> rfl

theorem Tallied.beat (h : Tallied σ) (ho : Orderly l σ) (hok : σ.Ok (program l))
    (hl : AllValid l) (hstops : AtStops σ) (hbeat : Beat (program l) σ σ') : Tallied σ' where
  counted := Counted.beat h ho hok hl hstops hbeat
  starting hstarting := by
    cases ho.cast.post_beat hok hbeat with
    | stays hpos =>
      rw [hpos] at hstarting
      have hnone := h.starting hstarting
      cases ho.cast.shared_beat hok hbeat with
      | same hshared => exact hshared ▸ hnone
      | cleared _ hshared =>
        rw [hshared]
        rfl
      | post o o' q q' _ _ _ hadv =>
        rcases post_counts hadv .inside with hsame | ⟨-, hreset⟩
        · exact hsame.trans hnone
        · rw [hreset]
      | rider t r o o' q q' hon _ _ _ hplace _ hadv =>
        rcases rider_aboard hadv with ⟨hsame, -⟩ | hserved
        · exact hsame.trans hnone
        · have hvisits := ho.served.visits t (Or.inl hon) (hplace ▸ hserved)
          rw [not_starting hvisits] at hstarting
          cases hstarting
    | starts hlast hpos hshared =>
      rw [hshared]
      refine (h.counted .inside).trans (tally_eq_zero fun t ht => ?_)
      rw [hlast] at ht
      obtain ⟨hone, hle⟩ := mem_tids_iff.mp ht
      obtain rfl := le_antisymm hle hone
      exact weight_opener _ ho.cast.pos_opener
    | goes o o' q q' _ hpos hpos' hadv =>
      rw [hpos'] at hstarting
      have hnone := h.starting (hpos ▸ post_starting hadv hstarting)
      rcases post_counts hadv .inside with hsame | ⟨-, hreset⟩
      · exact hsame.trans hnone
      · rw [hreset]

theorem Starts.tallied (h : Starts l w₀) : Tallied w₀.stage where
  counted c := by
    have hshared : w₀.stage.shared = opened := congrArg Stage.shared h.1.stage
    rw [hshared, Stage.total, tally_eq_zero fun t _ => by rw [h.pos]; rfl]
    cases c <;> rfl
  starting hstarting := by
    rw [h.pos] at hstarting
    cases hstarting

/-- What holds of every stage of the elevator with the riders of the company. -/
structure Company (l : List Arrival) (σ : Stage Lift Place) : Prop where
  tour : OnTour l σ
  tallied : Tallied σ

theorem Company.beat (h : Company l σ) (hl : Admitted l) (ho : Orderly l σ)
    (hok : σ.Ok (program l)) (hbeat : Beat (program l) σ σ') : Company l σ' where
  tour := h.tour.beat hl ho hok hbeat
  tallied := h.tallied.beat ho hok hl.valid h.tour.stops hbeat

theorem Starts.company (h : Starts l w₀) : Company l w₀.stage := ⟨h.onTour, h.tallied⟩

/-- An invariant of the stages of the company is one of the runs of what is observed. -/
theorem Starts.observed {S : Type} (world : S → World Lift Place) {step : Tick → S → Option S}
    {ok : Tick → S → Prop} {I : S → Prop} {a b : S} (h : Starts l (world a)) (hl : Admitted l)
    (hrun : Run step ok a b)
    (hworld : ∀ tick a b, step tick a = some b → (world a).step g (program l) tick = some (world b))
    (hown : ∀ tick a, ok tick a → EntersOwn tick (world a)) (hstart : I a)
    (hsame : ∀ tick a b, step tick a = some b → (world b).stage = (world a).stage → I a → I b)
    (hbeat : ∀ tick a b, step tick a = some b → ok tick a → (world a).stage.Ok (program l) →
      Orderly l (world a).stage → Company l (world a).stage →
      Beat (program l) (world a).stage (world b).stage →
      (GoesOn (world a).stage (world b).stage → AtStatement tick (world a)) → I a → I b) :
    (world b).stage.Ok (program l) ∧ Orderly l (world b).stage ∧ Company l (world b).stage ∧
      I b := by
  refine h.1.observed world
    (I := fun a => Orderly l (world a).stage ∧ Company l (world a).stage ∧ I a) program_bare
    hrun hworld hown ⟨h.orderly, h.company, hstart⟩ ?_ ?_
  · intro tick a b hstep heq hinv
    exact ⟨heq ▸ hinv.1, heq ▸ hinv.2.1, hsame tick a b hstep heq hinv.2.2⟩
  · intro tick a b hstep htick hok hmove hat hinv
    obtain ⟨ho, hcompany, hinv⟩ := hinv
    exact ⟨ho.beat hok hl.valid hmove, hcompany.beat hl ho hok hmove,
      hbeat tick a b hstep htick hok ho hcompany hmove hat hinv⟩

end Counted

section Rides

/-! The theorem. -/

/-- The rider is at a statement of `elevatorEnter`. -/
def Stand.isEntering : Stand → Bool
  | .enter | .enterRank | .uncountWaiter => true
  | _ => false

/-- The rider is at a statement of `elevatorRequestFloor` before its `t_wait`. -/
def Stand.isRequesting : Stand → Bool
  | .request | .sigRequest | .awaitFloor => true
  | _ => false

/-- The rider is at a statement of `elevatorExit`, and has executed the first. -/
def Stand.isExiting : Stand → Bool
  | .exit | .exitRank | .uncount | .clearStart | .clearEnd | .isVacant => true
  | .broadcast _ | .sigExit => true
  | _ => false

/-- The rider is between `elevatorEnter` and `elevatorExit`. -/
def Stand.isAboard : Stand → Bool
  | .request | .sigRequest | .awaitFloor | .leaveFloor => true
  | _ => false

/-- The rider is changing the counters. -/
def Stand.isInside (q : Stand) : Bool := q.isEntering || q.isRequesting || q.isExiting

def isAboard : Option Op × Place → Bool
  | (_, .rider _ q) => q.isAboard
  | _ => false

/-- The rider is aboard and wants to go to the floor. -/
def isBound (f : ℤ) : Option Op × Place → Bool
  | (_, .rider r q) => q.isAboard && r.floorE = f
  | _ => false

/-- How many threads are at such places. -/
def number (σ : Stage Lift Place) (p : Option Op × Place → Bool) : ℤ :=
  ((tids σ.last).filter fun t => p (σ.pos t) = true).card

/-- The indexes into `bld.floors` and `elv.floors` that a statement uses. -/
def indexes (g : Lift) : Place → List ℤ
  | .post (.numEnter ..) | .post (.numExit ..) | .post (.sigEnter ..) => [g.currentFloor]
  | .post (.sigExit ..) => [g.currentFloor]
  | .rider r .countFloor | .rider r .await | .rider r .uncountFloor => [r.floorS]
  | .rider r .request | .rider r .awaitFloor => [r.floorE]
  | .rider _ .leaveFloor => [g.currentFloor]
  | _ => []

/-- No rider is changing the counters. -/
def Settled (σ : Stage Lift Place) : Prop :=
  ∀ t ∈ tids σ.last, ∀ o r q, σ.pos t = (o, .rider r q) → q.isInside = false

/-- The rides are right. -/
structure RidesRight (σ : Stage Lift Place) : Prop where
  enters : ∀ t o r q, σ.on = some t → σ.pos t = (o, .rider r q) → q.isEntering = true →
    σ.shared.currentFloor = r.floorS
  exits : ∀ t o r q, σ.on = some t → σ.pos t = (o, .rider r q) →
    (o, q) = (none, .leaveFloor) ∨ q.isExiting = true → σ.shared.currentFloor = r.floorE
  numRiders : Settled σ → σ.shared.numRiders = number σ isAboard
  numWaiters : Settled σ → ∀ f, σ.shared.numWaiters f = number σ (isBound f)
  indexes : ∀ t place, σ.on = some t → σ.pos t = (none, place) →
    ∀ i ∈ indexes σ.shared place, 0 ≤ i ∧ i ≤ maxFloors - 1

theorem AtStops.enters {q : Stand} (h : AtStops σ) (hon : σ.on = some t)
    (hpos : σ.pos t = (o, .rider r q)) (hq : q.isEntering = true) :
    σ.shared.currentFloor = r.floorS := by
  refine h t _ (Or.inl hon) ?_
  rw [hpos]
  cases q <;> first | (cases o <;> rfl) | cases hq

theorem AtStops.exits {q : Stand} (h : AtStops σ) (hon : σ.on = some t)
    (hpos : σ.pos t = (o, .rider r q)) (hq : (o, q) = (none, .leaveFloor) ∨ q.isExiting = true) :
    σ.shared.currentFloor = r.floorE := by
  refine h t _ (Or.inl hon) ?_
  rw [hpos]
  rcases hq with heq | hq
  · cases heq
    rfl
  · cases q <;> first | (cases o <;> rfl) | cases hq

/-- A counter is the number of the riders that hold it. -/
theorem Counted.number (h : Counted σ) (c : Counter) (p : Option Op × Place → Bool)
    (hp : ∀ t ∈ tids σ.last, c.weight (σ.pos t) = if p (σ.pos t) then 1 else 0) :
    c.value σ.shared = number σ p := by
  calc c.value σ.shared
      = tally c.weight (tids σ.last) σ.pos := h c
    _ = tally (fun x => if p x then 1 else 0) (tids σ.last) σ.pos := Finset.sum_congr rfl hp
    _ = Elevator.number σ p := tally_eq_card p fun _ => rfl

theorem Settled.inside (h : Settled σ) (ht : t ∈ tids σ.last) :
    Counter.inside.weight (σ.pos t) = if isAboard (σ.pos t) then 1 else 0 := by
  rcases hpos : σ.pos t with ⟨o, place⟩
  cases place with
  | rider r q =>
    have hq := h t ht o r q hpos
    cases q <;> first | rfl | cases hq
  | _ => rfl

theorem Settled.bound (h : Settled σ) (ht : t ∈ tids σ.last) :
    (Counter.bound f).weight (σ.pos t) = if isBound f (σ.pos t) then 1 else 0 := by
  rcases hpos : σ.pos t with ⟨o, place⟩
  cases place with
  | rider r q =>
    have hq := h t ht o r q hpos
    cases q with
    | leaveFloor => simp [Counter.weight, Counter.holds, isBound, Stand.isAboard]
    | _ => first | rfl | cases hq
  | _ => rfl

theorem floor_index (hlow : 1 ≤ f) (hhigh : f ≤ 10) : 0 ≤ f ∧ f ≤ maxFloors - 1 := by
  change 0 ≤ f ∧ f ≤ 11 - 1
  omega

/-- The floors that the elevator and the riders use are there. -/
theorem Company.indexes (h : Company l σ) (hl : AllValid l) (ho : Orderly l σ)
    (hok : σ.Ok (program l)) (hon : σ.on = some t) (hpos : σ.pos t = (none, place)) :
    ∀ i ∈ indexes σ.shared place, 0 ≤ i ∧ i ≤ maxFloors - 1 := by
  obtain ⟨hone, hle⟩ := hok.running t hon
  intro i hi
  cases place with
  | create | clear | elevator | arrivals => cases hi
  | post q =>
    obtain rfl := ho.cast.is_post hone hle hpos
    have hfits := h.tour.fits none q hpos
    cases q with
    | numEnter | numExit | sigEnter | sigExit =>
      obtain rfl := List.mem_singleton.mp hi
      exact floor_index hfits.1 hfits.2.1
    | _ => cases hi
  | rider r q =>
    obtain ⟨-, hr, -⟩ := ho.cast.is_rider hone hle hpos
    obtain ⟨hs1, hs10, he1, he10⟩ := (hl r hr).bounds
    cases q with
    | countFloor | await | uncountFloor =>
      obtain rfl := List.mem_singleton.mp hi
      exact floor_index hs1 hs10
    | request | awaitFloor =>
      obtain rfl := List.mem_singleton.mp hi
      exact floor_index he1 he10
    | leaveFloor =>
      obtain rfl := List.mem_singleton.mp hi
      rw [h.tour.stops.exits hon hpos (Or.inl rfl)]
      exact floor_index he1 he10
    | _ => cases hi

theorem Company.rides (h : Company l σ) (hl : AllValid l) (ho : Orderly l σ)
    (hok : σ.Ok (program l)) : RidesRight σ where
  enters _ _ _ _ := h.tour.stops.enters
  exits _ _ _ _ := h.tour.stops.exits
  numRiders hs := h.tallied.counted.number .inside isAboard fun _ => hs.inside
  numWaiters hs f := h.tallied.counted.number (.bound f) (isBound f) fun _ => hs.bound
  indexes _ _ hon hpos := h.indexes hl ho hok hon hpos

/-- The rides are right at every moment of every run. -/
theorem rides_right (hl : Admitted l) (h₀ : Starts l w₀)
    (hrun : Run (World.step g (program l)) EntersOwn w₀ w) : RidesRight w.stage := by
  obtain ⟨hok, ho, hcompany⟩ := h₀.invariant (I := Company l) hl.valid hrun
    (fun _ _ h => ⟨h, trivial⟩) h₀.company
    fun σ σ' hok ho (_ : True) hbeat h => h.beat hl ho hok hbeat
  exact hcompany.rides hl.valid ho hok

theorem admitted_late : Admitted late := ⟨valid_late, by decide, by decide, by decide⟩

/-- The rider leaves at the floor where it wants to go. -/
theorem rides_right_late :
    ∃ w₀ w : World Lift Place, Starts late w₀ ∧
      w.stage.on = some 3 ∧ w.stage.pos 3 = (none, .rider ⟨.employee, 1, 2⟩ .exit) ∧
      RidesRight w.stage := by
  obtain ⟨w₀, w, h₀, hrun, hgood⟩ := exists_start late .statement EntersOwn
    (List.replicate 283 .run) (fun w => w.sys.on = some 3 ∧
      (w.sys.due 3, w.threads 3) = (none, .rider ⟨.employee, 1, 2⟩ .exit)) (by decide +kernel)
  obtain ⟨hon, hpos⟩ := of_decide_eq_true hgood
  exact ⟨w₀, w, h₀, hon, hpos, rides_right admitted_late h₀ hrun⟩

end Rides

end UserThreads.Elevator
