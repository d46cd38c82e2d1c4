import UserThreads.ElevatorRides

/-!
The slots of the directors' requests. A director stores its floors in the slot that
`setDirectors` names, and takes itself off `setDirectors` when it leaves, whatever its slot is.
As long as the directors that were counted when a request was stored are all still counted, no
other director stores in its slot. When one of them has left, the next one may.
-/
namespace UserThreads.Elevator

open Threads Runs Tallies MultilevelQueue

variable {l : List Arrival} {s s' : Lift} {place : Place} {x y : Option Op × Place}
  {σ σ' : Stage Lift Place} {t u v : Tid} {r : Rider} {o o' : Option Op} {q q' : Stand}
  {w₀ w : World Lift Place} {g : Grain}

section Requests

/-- How far a director is with its request. -/
inductive Phase
  | before
  /-- the start floor is stored -/
  | between
  /-- both floors are stored -/
  | filed
  /-- `setDirectors` counts it -/
  | waiting
  | riding
  | left
deriving DecidableEq

def Stand.phase : Stand → Phase
  | .start | .isStopped | .sigElevator | .countFloor | .countWaiter | .isEmpty => .before
  | .joinEmpty | .awaitEmpty | .leaveEmpty | .storeStart => .before
  | .storeEnd => .between
  | .count => .filed
  | .await | .uncountFloor | .enter | .enterRank | .uncountWaiter => .waiting
  | .request | .sigRequest | .awaitFloor | .leaveFloor | .exit | .exitRank | .uncount => .riding
  | .clearStart | .clearEnd | .isVacant | .broadcast _ | .sigExit | .exited | .gone => .left

/-- The phase of a thread that is a director. -/
def phase : Option Op × Place → Option Phase
  | (_, .rider r q) => if r.rank = .director then some q.phase else none
  | _ => none

/-- `setDirectors` counts the thread. -/
def isCounted (x : Option Op × Place) : Bool := phase x = some .waiting ∨ phase x = some .riding

/-- A request that a director has stored and `ElevatorThread` has not counted for exit. -/
structure Request where
  tid : Tid
  /-- `setDirectors` when the start floor is stored -/
  slot : ℤ
  /-- the directors that are counted then -/
  present : Finset Tid
deriving DecidableEq

def counted (σ : Stage Lift Place) : Finset Tid :=
  (tids σ.last).filter fun t => isCounted (σ.pos t) = true

/-- The requests after a step. -/
def noted (σ σ' : Stage Lift Place) (requests : List Request) : List Request :=
  match σ.on with
  | none => requests
  | some t =>
    if (σ'.pos t).2 = (σ.pos t).2 then requests
    else match σ.pos t with
      | (none, .rider r .storeStart) =>
        if r.rank = .director then ⟨t, σ.shared.setOf .director, counted σ⟩ :: requests
        else requests
      | (none, .post (.markExit _ i _ _)) => requests.filter (·.slot ≠ i)
      | _ => requests

/-- One step of the world, with the requests. -/
def booked (g : Grain) (l : List Arrival) (tick : Tick) (x : World Lift Place × List Request) :
    Option (World Lift Place × List Request) :=
  (x.1.step g (program l) tick).map fun w => (w, noted x.1.stage w.stage x.2)

/-- Each director that waits has its own slot with the floor where it wants to go, and so has
each one in the elevator that has not been counted for exit. -/
structure OwnSlots (σ : Stage Lift Place) (requests : List Request) : Prop where
  waiting : ∀ u ∈ tids σ.last, ∀ p, phase (σ.pos u) = some p →
    p = .between ∨ p = .filed ∨ p = .waiting → ∃ e ∈ requests, e.tid = u
  inside : ∀ e ∈ requests, 0 ≤ e.slot ∧ e.slot < 3
  /-- nobody else has stored its start floor there -/
  apart : ∀ e ∈ requests, ∀ e' ∈ requests, e.slot = e'.slot → e = e'
  /-- the end floor goes to the slot of the start floor -/
  second : ∀ e ∈ requests, phase (σ.pos e.tid) = some .between →
    e.slot = σ.shared.setOf .director
  goal : ∀ e ∈ requests, ∀ o r q, σ.pos e.tid = (o, .rider r q) → q ≠ .storeEnd →
    σ.shared.reqEFD e.slot = r.floorE

/-- A director stores its start floor. -/
def isStoring : Option Op × Place → Bool
  | (none, .rider r .storeStart) => r.rank = .director
  | _ => false

/-- A director executes `setDirectors--`. -/
def isLeaving : Option Op × Place → Bool
  | (none, .rider r .uncount) => r.rank = .director
  | _ => false

/-- `ElevatorThread` counts the director of the slot for exit. -/
def isMarking (i : ℤ) : Option Op × Place → Bool
  | (none, .post (.markExit _ j _ _)) => i = j
  | _ => false

/-- When a director stores its start floor, those with a request are counted, and so are still
those that were counted when it was stored; none takes itself off between the two stores of
another; and the elevator counts none for exit that is not in it. -/
structure InOrder (σ : Stage Lift Place) (requests : List Request) (t : Tid) : Prop where
  stores : isStoring (σ.pos t) = true → ∀ e ∈ requests,
    isCounted (σ.pos e.tid) = true ∧ ∀ u ∈ e.present, isCounted (σ.pos u) = true
  leaves : isLeaving (σ.pos t) = true → ∀ u ∈ tids σ.last, phase (σ.pos u) ≠ some .between
  marks : ∀ e ∈ requests, isMarking e.slot (σ.pos t) = true → phase (σ.pos e.tid) = some .riding

instance (σ : Stage Lift Place) (requests : List Request) (t : Tid) :
    Decidable (InOrder σ requests t) :=
  decidable_of_iff (_ ∧ _ ∧ _) ⟨fun h => ⟨h.1, h.2.1, h.2.2⟩, fun h => ⟨h.1, h.2, h.3⟩⟩

end Requests

section Steps

theorem counted_weight (x : Option Op × Place) :
    (Counter.registered .director).weight x = if isCounted x then 1 else 0 := by
  obtain ⟨o, place⟩ := x
  cases place with
  | rider r q =>
    cases hk : r.rank <;> cases q <;>
      simp [Counter.weight, Counter.holds, isCounted, phase, hk, Stand.phase]
  | _ => rfl

theorem storeStart_slots (g : Lift) (k : Rank) (n : ℤ) :
    (g.storeStart k n).setOf = g.setOf ∧ (g.storeStart k n).reqEFD = g.reqEFD := by
  cases k <;> exact ⟨rfl, rfl⟩

theorem storeEnd_slots (g : Lift) {k : Rank} (hk : k ≠ .director) (n : ℤ) :
    (g.storeEnd k n).setOf = g.setOf ∧ (g.storeEnd k n).reqEFD = g.reqEFD := by
  cases k
  · exact ⟨rfl, rfl⟩
  · exact absurd rfl hk
  · exact ⟨rfl, rfl⟩

/-- What a statement of a rider does to the requests of the directors. -/
inductive RiderSlots (r : Rider) (s : Lift) :
    Option Op × Stand → Lift → Option Op × Stand → Prop
  | stores (s' : Lift) (hr : r.rank = .director) (hset : s'.setOf = s.setOf)
      (hreq : s'.reqEFD = s.reqEFD) : RiderSlots r s (none, .storeStart) s' (none, .storeEnd)
  | files (s' : Lift) (hr : r.rank = .director) (hset : s'.setOf = s.setOf)
      (hreq : s'.reqEFD = Function.update s.reqEFD (s.setOf .director) r.floorE) :
      RiderSlots r s (none, .storeEnd) s' (none, .count)
  | counts (s' : Lift) (hr : r.rank = .director) (hreq : s'.reqEFD = s.reqEFD) :
      RiderSlots r s (none, .count) s' (none, .await)
  | leaves (s' : Lift) (hr : r.rank = .director) (hreq : s'.reqEFD = s.reqEFD) :
      RiderSlots r s (none, .uncount) s' (none, .isVacant)
  | other (x y : Option Op × Stand) (s' : Lift) (hset : s'.setOf .director = s.setOf .director)
      (hreq : s'.reqEFD = s.reqEFD) (hstores : x = (none, .storeStart) → r.rank ≠ .director)
      (hphase : r.rank = .director → y.2.phase = x.2.phase ∧ y.2 ≠ .clearStart ∧ y.2 ≠ .clearEnd ∨
        x.2.phase = .waiting ∧ y.2.phase = .riding) : RiderSlots r s x s' y

theorem rider_slots (hvalid : r.Valid) (h : Advance (fun g => rider g r) s (o, q) s' (o', q'))
    (hnever : r.rank = .director → q ≠ .clearStart ∧ q ≠ .clearEnd) :
    RiderSlots r s (o, q) s' (o', q') := by
  cases h with
  | ret op =>
    exact .other _ _ _ rfl rfl (fun heq => by cases heq) fun hr => Or.inl ⟨rfl, hnever hr⟩
  | call op _ _ hcode =>
    cases q with
    | broadcast i =>
      obtain rfl := broadcast_call hcode
      exact .other _ _ _ rfl rfl (fun heq => by cases heq) fun _ => Or.inl ⟨rfl, by simp, by simp⟩
    | awaitFloor | await | sigElevator | awaitEmpty | sigRequest | sigExit | exited =>
      cases hcode
      exact .other _ _ _ rfl rfl (fun heq => by cases heq) fun _ => Or.inl ⟨rfl, by simp, by simp⟩
    | _ => cases hcode
  | act _ _ _ hcode =>
    cases q with
    | broadcast i =>
      obtain ⟨rfl, rfl⟩ := broadcast_act hcode
      exact .other _ _ _ rfl rfl (fun heq => by cases heq) fun _ => Or.inl ⟨rfl, by simp, by simp⟩
    | sigElevator | awaitEmpty | await | sigRequest | awaitFloor | sigExit | exited | gone =>
      cases hcode
    | storeStart =>
      cases hcode
      obtain ⟨hset, hreq⟩ := storeStart_slots s r.rank r.floorS
      by_cases hr : r.rank = .director
      · exact .stores _ hr hset hreq
      · exact .other _ _ _ (congrFun hset _) hreq (fun _ => hr) fun hr' => absurd hr' hr
    | storeEnd =>
      cases hcode
      by_cases hr : r.rank = .director
      · rw [hr]
        exact .files _ hr rfl rfl
      · obtain ⟨hset, hreq⟩ := storeEnd_slots s hr r.floorE
        exact .other _ _ _ (congrFun hset _) hreq (fun _ => hr) fun hr' => absurd hr' hr
    | count =>
      cases hcode
      by_cases hr : r.rank = .director
      · rw [hr]
        exact .counts _ hr rfl
      · exact .other _ _ _ (bump_of_ne (Ne.symm hr) 1) rfl (fun _ => hr) fun hr' => absurd hr' hr
    | uncount =>
      cases hcode
      by_cases hr : r.rank = .director
      · rw [if_pos hr]
        exact .leaves _ hr rfl
      · exact .other _ _ _ (bump_of_ne (Ne.symm hr) (-1)) rfl (fun _ => hr) fun hr' => absurd hr' hr
    | clearStart =>
      cases hcode
      have hr : r.rank ≠ .director := fun hr => (hnever hr).1 rfl
      obtain ⟨hset, hreq⟩ := storeStart_slots s r.rank (-1)
      exact .other _ _ _ (congrFun hset _) hreq (fun _ => hr) fun hr' => absurd hr' hr
    | clearEnd =>
      cases hcode
      have hr : r.rank ≠ .director := fun hr => (hnever hr).2 rfl
      obtain ⟨hset, hreq⟩ := storeEnd_slots s hr (-1)
      exact .other _ _ _ (congrFun hset _) hreq (fun _ => hr) fun hr' => absurd hr' hr
    | uncountWaiter =>
      cases hcode
      exact .other _ _ _ rfl rfl (fun heq => by cases heq) fun _ => Or.inr ⟨rfl, rfl⟩
    | start =>
      have hdiffer : r.floorS < r.floorE ∨ r.floorE < r.floorS := lt_or_gt_of_ne hvalid.differ
      simp only [rider, if_pos hdiffer] at hcode
      cases hcode
      exact .other _ _ _ rfl rfl (fun heq => by cases heq) fun _ => Or.inl ⟨rfl, by simp, by simp⟩
    | leaveEmpty =>
      cases hcode
      refine .other _ _ _ rfl rfl (fun heq => by cases heq) fun hr => Or.inl ?_
      rw [hr]
      exact ⟨rfl, by simp [Rank.registers], by simp [Rank.registers]⟩
    | isStopped | countWaiter | isVacant =>
      injection hcode with hs hnext
      split at hnext <;> subst hs hnext <;>
        exact .other _ _ _ rfl rfl (fun heq => by cases heq) fun _ => Or.inl ⟨rfl, by simp, by simp⟩
    | isEmpty =>
      injection hcode with hs hnext
      split at hnext <;> subst hs hnext
      · exact .other _ _ _ rfl rfl (fun heq => by cases heq) fun _ => Or.inl ⟨rfl, by simp, by simp⟩
      · refine .other _ _ _ rfl rfl (fun heq => by cases heq) fun hr => Or.inl ?_
        rw [hr]
        exact ⟨rfl, by simp [Rank.registers], by simp [Rank.registers]⟩
    | _ =>
      cases hcode
      exact .other _ _ _ rfl rfl (fun heq => by cases heq) fun _ => Or.inl ⟨rfl, by simp, by simp⟩

/-- The elevator changes a request only when it counts a director. -/
theorem post_slots {p : Post} {z : Option Op × Post} (h : Advance elevatorThread s (o, p) s' z) :
    s'.setOf = s.setOf ∧ (s'.reqEFD = s.reqEFD ∧ (∀ d i e x, (o, p) ≠ (none, .markExit d i e x)) ∨
      ∃ d i e x, (o, p) = (none, .markExit d i e x) ∧ z = (none, .slot d (i + 1) e (x + 1)) ∧
        s'.reqEFD = Function.update s.reqEFD i (-1)) := by
  cases h with
  | ret op => exact ⟨rfl, Or.inl ⟨rfl, by simp⟩⟩
  | call op _ _ hcode =>
    refine ⟨rfl, Or.inl ⟨rfl, ?_⟩⟩
    rintro d i e x heq
    cases heq
    cases hcode
  | act _ next _ hcode =>
    cases p with
    | yields d n => cases n <;> cases hcode
    | isEdge d =>
      cases d <;> (injection hcode with hs; subst hs) <;> exact ⟨rfl, Or.inl ⟨rfl, by simp⟩⟩
    | firstWait | sigEnter | waitEnter | sigExit | waitExit | sleep => cases hcode
    | markExit d i e x =>
      cases hcode
      exact ⟨rfl, Or.inr ⟨d, i, e, x, rfl, rfl, rfl⟩⟩
    | _ =>
      injection hcode with hs
      subst hs
      exact ⟨rfl, Or.inl ⟨rfl, by simp⟩⟩

variable {requests : List Request}

theorem noted_other (hon : σ.on = some t) (hstores : isStoring (σ.pos t) = false)
    (hmarks : ∀ i, isMarking i (σ.pos t) = false) : noted σ σ' requests = requests := by
  unfold noted
  rw [hon]
  dsimp only
  split
  · rfl
  · split
    · rename_i r hpos
      rw [hpos] at hstores
      exact if_neg (of_decide_eq_false hstores)
    · rename_i i _ _ hpos
      have hmark := hmarks i
      rw [hpos] at hmark
      exact absurd rfl (of_decide_eq_false hmark)
    · rfl

theorem phase_opener (h : Early l x ∨ Late l x) : phase x = none := by
  rcases h with h | h <;> cases h <;> rfl

theorem storing_opener (h : Early l x ∨ Late l x) : isStoring x = false := by
  rcases h with h | h <;> cases h <;> rfl

theorem marking_opener (h : Early l x ∨ Late l x) (i : ℤ) : isMarking i x = false := by
  rcases h with h | h <;> cases h <;> rfl

/-- What a beat does to the requests. -/
inductive SlotBeat (σ σ' : Stage Lift Place) (requests : List Request) : List Request → Prop
  | quiet (hset : σ'.shared.setOf .director = σ.shared.setOf .director)
      (hreq : σ'.shared.reqEFD = σ.shared.reqEFD)
      (hphase : ∀ u ∈ tids σ.last, phase (σ'.pos u) = phase (σ.pos u) ∨
        phase (σ.pos u) = some .waiting ∧ phase (σ'.pos u) = some .riding) :
      SlotBeat σ σ' requests requests
  | stores (t : Tid) (r : Rider) (hon : σ.on = some t) (hr : r.rank = .director)
      (hpos : σ.pos t = (none, .rider r .storeStart))
      (hpos' : σ'.pos = Function.update σ.pos t (none, .rider r .storeEnd))
      (hset : σ'.shared.setOf = σ.shared.setOf) (hreq : σ'.shared.reqEFD = σ.shared.reqEFD) :
      SlotBeat σ σ' requests (⟨t, σ.shared.setOf .director, counted σ⟩ :: requests)
  | files (t : Tid) (r : Rider) (hon : σ.on = some t) (hr : r.rank = .director)
      (hpos : σ.pos t = (none, .rider r .storeEnd))
      (hpos' : σ'.pos = Function.update σ.pos t (none, .rider r .count))
      (hset : σ'.shared.setOf = σ.shared.setOf)
      (hreq : σ'.shared.reqEFD =
        Function.update σ.shared.reqEFD (σ.shared.setOf .director) r.floorE) :
      SlotBeat σ σ' requests requests
  | counts (t : Tid) (r : Rider) (hon : σ.on = some t) (hr : r.rank = .director)
      (hpos : σ.pos t = (none, .rider r .count))
      (hpos' : σ'.pos = Function.update σ.pos t (none, .rider r .await))
      (hreq : σ'.shared.reqEFD = σ.shared.reqEFD) : SlotBeat σ σ' requests requests
  | leaves (t : Tid) (r : Rider) (hon : σ.on = some t) (hr : r.rank = .director)
      (hpos : σ.pos t = (none, .rider r .uncount))
      (hpos' : σ'.pos = Function.update σ.pos t (none, .rider r .isVacant))
      (hreq : σ'.shared.reqEFD = σ.shared.reqEFD) : SlotBeat σ σ' requests requests
  | marks (d : Dir) (i e x : ℤ) (hon : σ.on = some 2)
      (hpos : σ.pos 2 = (none, .post (.markExit d i e x)))
      (hpos' : σ'.pos = Function.update σ.pos 2 (none, .post (.slot d (i + 1) e (x + 1))))
      (hset : σ'.shared.setOf = σ.shared.setOf)
      (hreq : σ'.shared.reqEFD = Function.update σ.shared.reqEFD i (-1)) :
      SlotBeat σ σ' requests (requests.filter (·.slot ≠ i))

/-- No director takes its request off the slots itself. -/
def Unclearing (σ : Stage Lift Place) : Prop :=
  ∀ u ∈ tids σ.last, ∀ o r q, σ.pos u = (o, .rider r q) → r.rank = .director →
    q ≠ .clearStart ∧ q ≠ .clearEnd

theorem slot_beat (requests : List Request) (ho : Orderly l σ) (hcompany : Company l σ)
    (hok : σ.Ok (program l)) (hl : AllValid l) (hnever : Unclearing σ)
    (hbeat : Beat (program l) σ σ') :
    SlotBeat σ σ' requests (noted σ σ' requests) := by
  have hc := ho.cast
  cases hbeat.shifts with
  | stay hshared hpos =>
    have hnoted : noted σ σ' requests = requests := by
      unfold noted
      rw [hpos]
      split
      · rfl
      · exact if_pos rfl
    rw [hnoted]
    exact .quiet (by rw [hshared]) (by rw [hshared]) fun u _ => Or.inl (by rw [hpos])
  | fork t f a p place hon hplace hshared hpos =>
    obtain rfl := hc.forks hok hon hplace
    have hopener := hc.pos_opener
    rw [noted_other hon (storing_opener hopener) (marking_opener hopener)]
    refine .quiet (by rw [hshared]) (by rw [hshared]) fun u hu => Or.inl ?_
    rw [hpos, Function.update_of_ne
      (ne_of_lt (lt_of_le_of_lt (mem_tids_iff.mp hu).2 (lt_next _)))]
    by_cases hone : u = 1
    · subst hone
      rw [Function.update_self, hplace]
      rw [hplace] at hopener
      rcases hopener with h | h <;> cases h <;> rfl
    · rw [Function.update_of_ne hone]
  | advance t y hon hadv hpos =>
    rcases on_cases hok hon with rfl | ⟨rfl, htwo⟩ | ⟨hthree, hle⟩
    · have hopener := hc.pos_opener
      rw [noted_other hon (storing_opener hopener) (marking_opener hopener)]
      have hphase : ∀ u ∈ tids σ.last, phase (σ'.pos u) = phase (σ.pos u) := by
        intro u _
        rw [hpos]
        by_cases hone : u = 1
        · subst hone
          rw [Function.update_self, phase_opener hopener,
            phase_opener (hopener.imp (Early.advance · hadv) (Late.advance · hadv))]
        · rw [Function.update_of_ne hone]
      rcases opener_shared hopener hadv with hsame | ⟨hclear, hcleared⟩
      · exact .quiet (by rw [hsame]) (by rw [hsame]) fun u hu => Or.inl (hphase u hu)
      · have hzero : σ.shared.setOf .director = 0 :=
          (hcompany.tallied.counted (.registered .director)).trans (total_alone hc hclear _)
        exact .quiet (by rw [hcleared, hzero]; rfl) (by rw [hcleared]; rfl)
          fun u hu => Or.inl (hphase u hu)
    · obtain ⟨o, p, hp⟩ := hc.pos_post htwo
      rw [hp] at hadv
      obtain ⟨p', hp', hadv⟩ := advance_post hadv
      obtain ⟨hset, hreq | ⟨d, i, e, x, heq, heq', hreq⟩⟩ := post_slots hadv
      · obtain ⟨hreq, hmarks⟩ := hreq
        rw [noted_other hon (by rw [hp]; cases o <;> rfl)]
        · refine .quiet (congrFun hset _) hreq fun u _ => Or.inl ?_
          rw [hpos]
          by_cases h2 : u = 2
          · subst h2
            rw [Function.update_self, hp, show y = (y.1, .post p') from Prod.ext rfl hp']
            rfl
          · rw [Function.update_of_ne h2]
        · intro i
          rw [hp]
          cases o with
          | some op => rfl
          | none =>
            cases p with
            | markExit d j e x => exact absurd rfl (hmarks d j e x)
            | _ => rfl
      · cases heq
        obtain ⟨ho', hp''⟩ := Prod.mk.inj heq'
        have hy : y = (none, .post (.slot d (i + 1) e (x + 1))) :=
          Prod.ext ho' (hp'.trans (by rw [hp'']))
        rw [hy] at hpos
        have hnoted : noted σ σ' requests = requests.filter (·.slot ≠ i) := by
          unfold noted
          rw [hon]
          dsimp only
          rw [hpos, hp, Function.update_self]
          exact if_neg (by simp)
        rw [hnoted]
        exact .marks d i e x hon hp hpos hset hreq
    · obtain ⟨o, r, q, hq, hr, -⟩ := hc.pos_rider hthree hle
      rw [hq] at hadv
      obtain ⟨q', hq', hadv⟩ := advance_rider hadv
      have hmem : t ∈ tids σ.last := mem_tids_iff.mpr (hok.running t hon)
      have hslots := rider_slots (hl r hr) hadv (hnever t hmem o r q hq)
      rw [show y = (y.1, .rider r q') from Prod.ext rfl hq'] at hpos
      generalize y.1 = o' at hpos hslots
      have hmarks : ∀ i, isMarking i (σ.pos t) = false := by
        intro i
        rw [hq]
        cases o <;> rfl
      cases hslots with
      | stores _ hrank hset hreq =>
        have hnoted : noted σ σ' requests =
            ⟨t, σ.shared.setOf .director, counted σ⟩ :: requests := by
          unfold noted
          rw [hon]
          dsimp only
          rw [hpos, hq, Function.update_self]
          exact (if_neg (by simp)).trans (if_pos hrank)
        rw [hnoted]
        exact .stores t r hon hrank hq hpos hset hreq
      | files _ hrank hset hreq =>
        rw [noted_other hon (by rw [hq]; rfl) hmarks]
        exact .files t r hon hrank hq hpos hset hreq
      | counts _ hrank hreq =>
        rw [noted_other hon (by rw [hq]; rfl) hmarks]
        exact .counts t r hon hrank hq hpos hreq
      | leaves _ hrank hreq =>
        rw [noted_other hon (by rw [hq]; rfl) hmarks]
        exact .leaves t r hon hrank hq hpos hreq
      | other _ _ _ hset hreq hstores hphase =>
        have hstoring : isStoring (σ.pos t) = false := by
          rw [hq]
          cases o with
          | some op => rfl
          | none =>
            cases q with
            | storeStart => exact decide_eq_false (hstores rfl)
            | _ => rfl
        rw [noted_other hon hstoring hmarks]
        refine .quiet hset hreq fun u _ => ?_
        rw [hpos]
        by_cases hut : u = t
        · subst hut
          rw [Function.update_self, hq]
          by_cases hrank : r.rank = .director
          · rcases hphase hrank with ⟨hsame, -⟩ | ⟨hbefore, hafter⟩
            · left
              simp only [phase, if_pos hrank]
              exact congrArg some hsame
            · right
              simp only [phase, if_pos hrank]
              exact ⟨congrArg some hbefore, congrArg some hafter⟩
          · left
            simp only [phase, if_neg hrank]
        · exact Or.inl (by rw [Function.update_of_ne hut])

theorem phase_rider {p : Phase} (h : phase x = some p) :
    ∃ o r q, x = (o, .rider r q) ∧ r.rank = .director ∧ q.phase = p := by
  obtain ⟨o, place⟩ := x
  cases place with
  | rider r q =>
    by_cases hr : r.rank = .director
    · refine ⟨o, r, q, rfl, hr, ?_⟩
      simp only [phase, if_pos hr] at h
      exact Option.some.inj h
    · simp only [phase, if_neg hr] at h
      cases h
  | _ => cases h

theorem phase_of {o : Option Op} (hr : r.rank = .director) :
    phase (o, .rider r q) = some q.phase := if_pos hr

theorem tids_sub (h : σ.last ≤ σ'.last) (ht : t ∈ tids σ.last) : t ∈ tids σ'.last :=
  mem_tids_iff.mpr ((mem_tids_iff.mp ht).imp id (le_trans · h))

/-- Who has stored something was there before. -/
theorem Cast.phase_old (hc : Cast l σ) (hok : σ.Ok (program l)) (hl : AllValid l)
    (hbeat : Beat (program l) σ σ') {p : Phase} (hu : u ∈ tids σ'.last)
    (hp : phase (σ'.pos u) = some p) (hne : p ≠ .before) : u ∈ tids σ.last := by
  obtain ⟨hone, hle⟩ := mem_tids_iff.mp hu
  obtain ⟨o, r, q, hpos, -, rfl⟩ := phase_rider hp
  rcases hc.rider_before hok hl hbeat hone hle hpos with ⟨hold, -⟩ | ⟨-, rfl⟩
  · exact mem_tids_iff.mpr ⟨hone, hold⟩
  · exact absurd rfl hne

theorem Unclearing.beat (h : Unclearing σ) (hc : Cast l σ) (hok : σ.Ok (program l))
    (hl : AllValid l) (hbeat : Beat (program l) σ σ') : Unclearing σ' := by
  intro u hu o r q hpos hr
  obtain ⟨hone, hle⟩ := mem_tids_iff.mp hu
  rcases hc.rider_before hok hl hbeat hone hle hpos with ⟨hold, o₀, q₀, hpos₀⟩ | ⟨-, rfl⟩
  · have hbefore := h u (mem_tids_iff.mpr ⟨hone, hold⟩) o₀ r q₀ hpos₀ hr
    rcases hc.rider_beat hok hbeat hone hold hpos₀ with hsame | ⟨o₁, q₁, -, hpos₁, hadv⟩
    · cases (hpos₀.symm.trans hsame.symm).trans hpos
      exact hbefore
    · cases hpos₁.symm.trans hpos
      have hvalid := hl r (hc.is_rider hone hold hpos₀).2.1
      cases rider_slots hvalid hadv fun _ => hbefore with
      | stores | files | counts | leaves => exact ⟨by simp, by simp⟩
      | other _ _ _ _ _ _ hphase =>
        rcases hphase hr with ⟨-, hnot⟩ | ⟨-, hriding⟩
        · exact hnot
        · refine ⟨?_, ?_⟩
          · rintro rfl
            cases hriding
          · rintro rfl
            cases hriding
  · exact ⟨by simp, by simp⟩

/-- `setDirectors` is the number of the directors that it counts. -/
theorem Company.counted_card (h : Company l σ) : σ.shared.setOf .director = (counted σ).card :=
  h.tallied.counted.number (.registered .director) isCounted fun t _ => counted_weight (σ.pos t)

theorem mem_counted : u ∈ counted σ ↔ u ∈ tids σ.last ∧ isCounted (σ.pos u) = true :=
  Finset.mem_filter

theorem isCounted_iff : isCounted x = true ↔ phase x = some .waiting ∨ phase x = some .riding :=
  decide_eq_true_iff

/-- A director that stores its start floor is not counted, and there are at most three. -/
theorem Company.room (h : Company l σ) (hl : Admitted l) (ht : t ∈ tids σ.last)
    (hp : phase (σ.pos t) = some .before) : t ∉ counted σ ∧ σ.shared.setOf .director < 3 := by
  have hnot : t ∉ counted σ := by
    intro hmem
    rcases isCounted_iff.mp (mem_counted.mp hmem).2 with hw | hw <;> cases hp.symm.trans hw
  refine ⟨hnot, ?_⟩
  have hdirector : ∀ u ∈ t :: (counted σ).toList,
      1 ≤ u ∧ u ≤ σ.last ∧ ∃ o r q, σ.pos u = (o, .rider r q) ∧ r.rank = .director := by
    intro u hu
    have hmem : u ∈ tids σ.last ∧ ∃ p, phase (σ.pos u) = some p := by
      rcases List.mem_cons.mp hu with rfl | hu
      · exact ⟨ht, _, hp⟩
      · obtain ⟨hu, hcounted⟩ := mem_counted.mp (Finset.mem_toList.mp hu)
        exact ⟨hu, (isCounted_iff.mp hcounted).elim (⟨_, ·⟩) (⟨_, ·⟩)⟩
    obtain ⟨hu, p, hp⟩ := hmem
    obtain ⟨hone, hle⟩ := mem_tids_iff.mp hu
    obtain ⟨o, r, q, hpos, hr, -⟩ := phase_rider hp
    exact ⟨hone, hle, o, r, q, hpos, hr⟩
  have hlength := h.tour.numbered.length_le (t :: (counted σ).toList)
    (List.nodup_cons.mpr ⟨fun hm => hnot (Finset.mem_toList.mp hm), Finset.nodup_toList _⟩)
    hdirector
  have hthree := hl.directors
  have hcard := h.counted_card
  rw [List.length_cons, Finset.length_toList] at hlength
  omega

end Steps

section Ledger

variable {requests requests' : List Request}

/-- What holds of the requests in a run that keeps the order. -/
structure Ledger (σ : Stage Lift Place) (requests : List Request) : Prop where
  own : OwnSlots σ requests
  never : Unclearing σ
  known : ∀ e ∈ requests, e.tid ∈ tids σ.last ∧ ∃ p, phase (σ.pos e.tid) = some p ∧ p ≠ .before
  room : ∀ e ∈ requests, e.slot = e.present.card ∧ e.tid ∉ e.present ∧ e.present ⊆ tids σ.last
  once : ∀ e ∈ requests, ∀ e' ∈ requests, e.tid = e'.tid → e = e'
  /-- one director at a time is between its first store and `setDirectors++` -/
  alone : ∀ u ∈ tids σ.last, ∀ v ∈ tids σ.last, ∀ p p', phase (σ.pos u) = some p →
    phase (σ.pos v) = some p' → p = .between ∨ p = .filed → p' = .between ∨ p' = .filed → u = v

/-- A thread that has stored something stays one. -/
theorem SlotBeat.later (h : SlotBeat σ σ' requests requests') (hu : u ∈ tids σ.last) {p : Phase}
    (hp : phase (σ.pos u) = some p) (hne : p ≠ .before) :
    ∃ p', phase (σ'.pos u) = some p' ∧ p' ≠ .before := by
  have hkept : ∀ {t : Tid} {x : Option Op × Place}, σ'.pos = Function.update σ.pos t x →
      (t = u → ∃ p', phase x = some p' ∧ p' ≠ .before) →
      ∃ p', phase (σ'.pos u) = some p' ∧ p' ≠ .before := by
    intro t x hpos hself
    by_cases htu : t = u
    · rw [hpos, ← htu, Function.update_self]
      exact hself htu
    · rw [hpos, Function.update_of_ne (Ne.symm htu)]
      exact ⟨p, hp, hne⟩
  cases h with
  | quiet _ _ hphase =>
    rcases hphase u hu with hsame | ⟨-, hriding⟩
    · exact ⟨p, hsame.trans hp, hne⟩
    · exact ⟨_, hriding, by simp⟩
  | stores t r _ hr _ hpos | files t r _ hr _ hpos | counts t r _ hr _ hpos
  | leaves t r _ hr _ hpos => exact hkept hpos fun _ => ⟨_, phase_of hr, by simp [Stand.phase]⟩
  | marks d i e x _ hplace hpos =>
    refine hkept hpos ?_
    rintro rfl
    rw [hplace] at hp
    cases hp

/-- The requests are of the threads that stored them. -/
theorem SlotBeat.mem (h : SlotBeat σ σ' requests requests') {e : Request} (he : e ∈ requests') :
    e ∈ requests ∨ ∃ t r, σ.on = some t ∧ r.rank = .director ∧
      σ.pos t = (none, .rider r .storeStart) ∧
      σ'.pos = Function.update σ.pos t (none, .rider r .storeEnd) ∧
      σ'.shared.setOf = σ.shared.setOf ∧ e = ⟨t, σ.shared.setOf .director, counted σ⟩ := by
  cases h with
  | quiet | files | counts | leaves => exact Or.inl he
  | marks => exact Or.inl (List.mem_filter.mp he).1
  | stores t r hon hr hpos hpos' hset =>
    rcases List.mem_cons.mp he with rfl | he
    · exact Or.inr ⟨t, r, hon, hr, hpos, hpos', hset, rfl⟩
    · exact Or.inl he

theorem goesOn_update (hok : σ.Ok (program l)) (hon : σ.on = some t)
    (hpos : σ'.pos = Function.update σ.pos t x) (hne : x.2 ≠ (σ.pos t).2) : GoesOn σ σ' := by
  refine ⟨t, (hok.running t hon).2, ?_⟩
  rw [hpos, Function.update_self]
  exact hne

/-- A director that stores its start floor is in no request yet. -/
theorem Ledger.fresh (h : Ledger σ requests) (hpos : σ.pos t = (none, .rider r .storeStart))
    (hr : r.rank = .director) {e : Request} (he : e ∈ requests) : e.tid ≠ t := by
  rintro rfl
  obtain ⟨-, p, hp, hne⟩ := h.known e he
  rw [hpos, phase_of hr] at hp
  exact hne (Option.some.inj hp).symm

/-- The slot of a director that stores its start floor is not one of a request. -/
theorem Ledger.free (h : Ledger σ requests) (hcompany : Company l σ)
    (hpos : σ.pos t = (none, .rider r .storeStart)) (hr : r.rank = .director)
    (horder : InOrder σ requests t) {e : Request} (he : e ∈ requests) :
    e.slot < σ.shared.setOf .director := by
  have hstoring : isStoring (σ.pos t) = true := by
    rw [hpos]
    exact decide_eq_true hr
  obtain ⟨htid, hpresent⟩ := horder.stores hstoring e he
  obtain ⟨hslot, hnot, hsub⟩ := h.room e he
  have hall : insert e.tid e.present ⊆ counted σ := by
    intro u hu
    rcases Finset.mem_insert.mp hu with rfl | hu
    · exact mem_counted.mpr ⟨(h.known e he).1, htid⟩
    · exact mem_counted.mpr ⟨hsub hu, hpresent u hu⟩
  have hcard := Finset.card_le_card hall
  rw [Finset.card_insert_of_notMem hnot] at hcard
  have hcounted := hcompany.counted_card
  omega

section Beat

variable (h : Ledger σ requests) (hbeat : Beat (program l) σ σ') (hok : σ.Ok (program l))
  (hc : Cast l σ) (hl : Admitted l) (hcompany : Company l σ)
  (hslots : SlotBeat σ σ' requests requests')
  (horder : GoesOn σ σ' → ∀ t, σ.on = some t → InOrder σ requests t)

include h hslots hok

theorem Ledger.known_step (hle : σ.last ≤ σ'.last) : ∀ e ∈ requests', e.tid ∈ tids σ'.last ∧
    ∃ p, phase (σ'.pos e.tid) = some p ∧ p ≠ .before := by
  intro e he
  rcases hslots.mem he with he | ⟨t, r, hon, hr, -, hpos', -, rfl⟩
  · obtain ⟨hmem, p, hp, hne⟩ := h.known e he
    exact ⟨tids_sub hle hmem, hslots.later hmem hp hne⟩
  · refine ⟨tids_sub hle (mem_tids_iff.mpr (hok.running t hon)), .between, ?_, by simp⟩
    rw [hpos', Function.update_self]
    exact phase_of hr

omit hok in
theorem Ledger.once_step : ∀ e ∈ requests', ∀ e' ∈ requests', e.tid = e'.tid → e = e' := by
  intro e he e' he' heq
  rcases hslots.mem he with he | ⟨t, r, hon, hr, hpos, -, -, rfl⟩ <;>
    rcases hslots.mem he' with he' | ⟨t', r', hon', hr', hpos', -, -, rfl⟩
  · exact h.once e he e' he' heq
  · exact absurd heq (h.fresh hpos' hr' he)
  · exact absurd heq.symm (h.fresh hpos hr he')
  · cases hon.symm.trans hon'
    rfl

include hcompany hl in
theorem Ledger.room_step (hle : σ.last ≤ σ'.last) : ∀ e ∈ requests',
    e.slot = e.present.card ∧ e.tid ∉ e.present ∧ e.present ⊆ tids σ'.last := by
  intro e he
  rcases hslots.mem he with he | ⟨t, r, hon, hr, hpos, -, -, rfl⟩
  · obtain ⟨hslot, hnot, hsub⟩ := h.room e he
    exact ⟨hslot, hnot, fun u hu => tids_sub hle (hsub hu)⟩
  · have hmem : t ∈ tids σ.last := mem_tids_iff.mpr (hok.running t hon)
    have hp : phase (σ.pos t) = some .before := by
      rw [hpos]
      exact phase_of hr
    exact ⟨hcompany.counted_card, (hcompany.room hl hmem hp).1,
      fun u hu => tids_sub hle (mem_counted.mp hu).1⟩

include hcompany hl in
theorem Ledger.inside_step : ∀ e ∈ requests', 0 ≤ e.slot ∧ e.slot < 3 := by
  intro e he
  rcases hslots.mem he with he | ⟨t, r, hon, hr, hpos, -, -, rfl⟩
  · exact h.own.inside e he
  · have hmem : t ∈ tids σ.last := mem_tids_iff.mpr (hok.running t hon)
    have hp : phase (σ.pos t) = some .before := by
      rw [hpos]
      exact phase_of hr
    exact ⟨hcompany.counted_card ▸ Int.natCast_nonneg _, (hcompany.room hl hmem hp).2⟩

include hcompany horder in
theorem Ledger.apart_step : ∀ e ∈ requests', ∀ e' ∈ requests', e.slot = e'.slot → e = e' := by
  have hfree : ∀ {t r}, σ.on = some t → r.rank = .director →
      σ.pos t = (none, .rider r .storeStart) →
      σ'.pos = Function.update σ.pos t (none, .rider r .storeEnd) →
      ∀ e ∈ requests, e.slot ≠ σ.shared.setOf .director := by
    intro t r hon hr hpos hpos' e he
    have hgoes : GoesOn σ σ' := goesOn_update hok hon hpos' (by rw [hpos]; simp)
    exact ne_of_lt (h.free hcompany hpos hr (horder hgoes t hon) he)
  intro e he e' he' heq
  rcases hslots.mem he with he | ⟨t, r, hon, hr, hpos, hafter, -, rfl⟩ <;>
    rcases hslots.mem he' with he' | ⟨t', r', hon', hr', hpos', hafter', -, rfl⟩
  · exact h.own.apart e he e' he' heq
  · exact absurd heq (hfree hon' hr' hpos' hafter' e he)
  · exact absurd heq.symm (hfree hon hr hpos hafter e' he')
  · cases hon.symm.trans hon'
    rfl

omit h hok in
/-- Who waits with a request did so before, or has just stored its start floor. -/
theorem SlotBeat.pending (hu : u ∈ tids σ.last) {p : Phase} (hp : phase (σ'.pos u) = some p)
    (hpending : p = .between ∨ p = .filed ∨ p = .waiting) :
    (∃ p', phase (σ.pos u) = some p' ∧ (p' = p ∨ p' = .between ∧ p = .filed ∨
      p' = .filed ∧ p = .waiting)) ∨
    ∃ r, σ.on = some u ∧ σ.pos u = (none, .rider r .storeStart) ∧ r.rank = .director ∧
      σ'.pos = Function.update σ.pos u (none, .rider r .storeEnd) ∧ p = .between ∧
      ⟨u, σ.shared.setOf .director, counted σ⟩ ∈ requests' := by
  have hkept : ∀ {t : Tid} {x : Option Op × Place}, σ'.pos = Function.update σ.pos t x → u ≠ t →
      phase (σ.pos u) = some p := by
    intro t x hpos hne
    rwa [hpos, Function.update_of_ne hne] at hp
  cases hslots with
  | quiet _ _ hphase =>
    rcases hphase u hu with hsame | ⟨-, hriding⟩
    · exact Or.inl ⟨p, hsame.symm.trans hp, Or.inl rfl⟩
    · cases hriding.symm.trans hp
      simp at hpending
  | stores t r hon hr hpos hpos' =>
    by_cases hut : u = t
    · subst hut
      rw [hpos', Function.update_self, phase_of hr] at hp
      cases hp
      exact Or.inr ⟨r, hon, hpos, hr, hpos', rfl, List.mem_cons_self ..⟩
    · exact Or.inl ⟨p, hkept hpos' hut, Or.inl rfl⟩
  | files t r hon hr hpos hpos' =>
    by_cases hut : u = t
    · subst hut
      rw [hpos', Function.update_self, phase_of hr] at hp
      cases hp
      exact Or.inl ⟨.between, by rw [hpos, phase_of hr]; rfl, Or.inr (Or.inl ⟨rfl, rfl⟩)⟩
    · exact Or.inl ⟨p, hkept hpos' hut, Or.inl rfl⟩
  | counts t r hon hr hpos hpos' =>
    by_cases hut : u = t
    · subst hut
      rw [hpos', Function.update_self, phase_of hr] at hp
      cases hp
      exact Or.inl ⟨.filed, by rw [hpos, phase_of hr]; rfl, Or.inr (Or.inr ⟨rfl, rfl⟩)⟩
    · exact Or.inl ⟨p, hkept hpos' hut, Or.inl rfl⟩
  | leaves t r hon hr hpos hpos' =>
    by_cases hut : u = t
    · subst hut
      rw [hpos', Function.update_self, phase_of hr] at hp
      cases hp
      simp [Stand.phase] at hpending
    · exact Or.inl ⟨p, hkept hpos' hut, Or.inl rfl⟩
  | marks d i e x hon hpos hpos' =>
    by_cases hut : u = 2
    · subst hut
      rw [hpos', Function.update_self] at hp
      cases hp
    · exact Or.inl ⟨p, hkept hpos' hut, Or.inl rfl⟩

/-- A request stays while its director waits. -/
theorem Ledger.stays (hu : u ∈ tids σ.last) {p : Phase} (hp : phase (σ.pos u) = some p)
    (hpending : p = .between ∨ p = .filed ∨ p = .waiting)
    (horder : GoesOn σ σ' → ∀ t, σ.on = some t → InOrder σ requests t) :
    ∃ e ∈ requests', e.tid = u := by
  obtain ⟨e, he, rfl⟩ := h.own.waiting u hu p hp hpending
  cases hslots with
  | quiet | files | counts | leaves => exact ⟨e, he, rfl⟩
  | stores => exact ⟨e, List.mem_cons_of_mem _ he, rfl⟩
  | marks d i n x hon hpos hpos' =>
    refine ⟨e, List.mem_filter.mpr ⟨he, decide_eq_true fun hslot => ?_⟩, rfl⟩
    have hgoes : GoesOn σ σ' := goesOn_update hok hon hpos' (by rw [hpos]; simp)
    have hriding := (horder hgoes 2 hon).marks e he (by rw [hpos]; exact decide_eq_true hslot)
    cases hp.symm.trans hriding
    simp at hpending

include hc hl hbeat horder

theorem Ledger.waiting_step : ∀ u ∈ tids σ'.last, ∀ p, phase (σ'.pos u) = some p →
    p = .between ∨ p = .filed ∨ p = .waiting → ∃ e ∈ requests', e.tid = u := by
  intro u hu p hp hpending
  have hne : p ≠ .before := by
    rintro rfl
    simp at hpending
  have hold := hc.phase_old hok hl.valid hbeat hu hp hne
  rcases hslots.pending hold hp hpending with ⟨p', hp', hcases⟩ | ⟨r, -, -, -, -, -, hmem⟩
  · refine h.stays hok hslots hold hp' ?_ horder
    rcases hcases with rfl | ⟨rfl, -⟩ | ⟨rfl, -⟩
    · exact hpending
    · exact Or.inl rfl
    · exact Or.inr (Or.inl rfl)
  · exact ⟨_, hmem, rfl⟩

theorem Ledger.alone_step : ∀ u ∈ tids σ'.last, ∀ v ∈ tids σ'.last, ∀ p p',
    phase (σ'.pos u) = some p → phase (σ'.pos v) = some p' → p = .between ∨ p = .filed →
    p' = .between ∨ p' = .filed → u = v := by
  have hfiling : ∀ {u p}, u ∈ tids σ'.last → phase (σ'.pos u) = some p →
      p = .between ∨ p = .filed →
      (u ∈ tids σ.last ∧ ∃ p', phase (σ.pos u) = some p' ∧ (p' = .between ∨ p' = .filed)) ∨
      σ.on = some u ∧ ∀ e ∈ requests, isCounted (σ.pos e.tid) = true := by
    intro u p hu hp hfiling
    have hne : p ≠ .before := by
      rintro rfl
      simp at hfiling
    have hold := hc.phase_old hok hl.valid hbeat hu hp hne
    rcases hslots.pending hold hp (hfiling.imp id Or.inl) with
      ⟨p', hp', hcases⟩ | ⟨r, hon, hpos, hr, hpos', -⟩
    · refine Or.inl ⟨hold, p', hp', ?_⟩
      rcases hcases with rfl | ⟨rfl, -⟩ | ⟨rfl, -⟩
      · exact hfiling
      · exact Or.inl rfl
      · exact Or.inr rfl
    · have hgoes : GoesOn σ σ' := goesOn_update hok hon hpos' (by rw [hpos]; simp)
      refine Or.inr ⟨hon, fun e he => ((horder hgoes u hon).stores ?_ e he).1⟩
      rw [hpos]
      exact decide_eq_true hr
  have hnobody : ∀ {u p}, u ∈ tids σ.last → phase (σ.pos u) = some p →
      p = .between ∨ p = .filed → ¬ ∀ e ∈ requests, isCounted (σ.pos e.tid) = true := by
    intro u p hu hp hcases hall
    obtain ⟨e, he, rfl⟩ := h.own.waiting u hu p hp (hcases.imp id Or.inl)
    rcases isCounted_iff.mp (hall e he) with hw | hw <;> cases hp.symm.trans hw <;> simp at hcases
  intro u hu v hv p p' hp hp' hcases hcases'
  rcases hfiling hu hp hcases with ⟨hu, p₀, hp₀, hold⟩ | ⟨hon, hall⟩ <;>
    rcases hfiling hv hp' hcases' with ⟨hv, p₁, hp₁, hold'⟩ | ⟨hon', hall'⟩
  · exact h.alone u hu v hv p₀ p₁ hp₀ hp₁ hold hold'
  · exact absurd hall' (hnobody hu hp₀ hold)
  · exact absurd hall (hnobody hv hp₁ hold')
  · cases hon.symm.trans hon'
    rfl

omit hbeat hl hc in
theorem Ledger.second_step : ∀ e ∈ requests', phase (σ'.pos e.tid) = some .between →
    e.slot = σ'.shared.setOf .director := by
  intro e he hp
  rcases hslots.mem he with he | ⟨t, r, -, -, -, -, hset, rfl⟩
  · obtain ⟨hmem, -⟩ := h.known e he
    have hbefore : phase (σ.pos e.tid) = some .between := by
      rcases hslots.pending hmem hp (Or.inl rfl) with ⟨p', hp', hcases⟩ | ⟨r, -, hpos, hr, -⟩
      · rcases hcases with rfl | ⟨-, hfiled⟩ | ⟨-, hwaiting⟩
        · exact hp'
        · cases hfiled
        · cases hwaiting
      · exact absurd rfl (h.fresh hpos hr he)
    have hslot := h.own.second e he hbefore
    cases hslots with
    | quiet hset => exact hslot.trans hset.symm
    | stores _ _ _ _ _ _ hset | files _ _ _ _ _ _ hset | marks _ _ _ _ _ _ _ hset =>
      exact hslot.trans (congrFun hset _).symm
    | counts t r hon hr hpos =>
      have ht : t ∈ tids σ.last := mem_tids_iff.mpr (hok.running t hon)
      have hfiled : phase (σ.pos t) = some .filed := by
        rw [hpos]
        exact phase_of hr
      have heq := h.alone e.tid hmem t ht _ _ hbefore hfiled (Or.inl rfl) (Or.inr rfl)
      rw [heq] at hbefore
      cases hbefore.symm.trans hfiled
    | leaves t r hon hr hpos hpos' =>
      have hgoes : GoesOn σ σ' := goesOn_update hok hon hpos' (by rw [hpos]; simp)
      refine absurd hbefore ((horder hgoes t hon).leaves ?_ e.tid hmem)
      rw [hpos]
      exact decide_eq_true hr
  · exact (congrFun hset _).symm

omit horder in
theorem Ledger.goal_step : ∀ e ∈ requests', ∀ o r q, σ'.pos e.tid = (o, .rider r q) →
    q ≠ .storeEnd → σ'.shared.reqEFD e.slot = r.floorE := by
  intro e he o r q hplace hne
  have hkept : ∀ {t : Tid} {x : Option Op × Place}, σ'.pos = Function.update σ.pos t x →
      e ∈ requests → e.tid ≠ t → σ.shared.reqEFD e.slot = r.floorE := by
    intro t x hpos he hne'
    rw [hpos, Function.update_of_ne hne'] at hplace
    exact h.own.goal e he o r q hplace hne
  cases hslots with
  | quiet hset hreq hphase =>
    obtain ⟨hmem, -⟩ := h.known e he
    obtain ⟨hone, hle⟩ := mem_tids_iff.mp hmem
    rcases hc.rider_before hok hl.valid hbeat hone (le_trans hle hbeat.last_le) hplace with
      ⟨-, o₀, q₀, hpos₀⟩ | ⟨-, rfl⟩
    · rw [hreq]
      refine h.own.goal e he o₀ r q₀ hpos₀ ?_
      rintro rfl
      obtain ⟨-, p, hp, -⟩ := h.known e he
      obtain ⟨o', r', q', hpos', hr', hq'⟩ := phase_rider hp
      cases hpos₀.symm.trans hpos'
      rcases hphase e.tid hmem with hsame | ⟨hwaiting, -⟩
      · rw [hplace, hpos₀, phase_of hr', phase_of hr'] at hsame
        have hbetween : q.phase = .between := Option.some.inj hsame
        cases q <;> first | exact hne rfl | cases hbetween
      · rw [hpos₀, phase_of hr'] at hwaiting
        cases hwaiting
    · obtain ⟨-, p, hp, hnot⟩ := h.known e he
      obtain ⟨o', r', q', hpos', hr', hq'⟩ := phase_rider hp
      rcases hphase e.tid hmem with hsame | ⟨-, hriding⟩
      · rw [hp, hplace] at hsame
        obtain ⟨_, _, _, heq, hr, hq⟩ := phase_rider hsame
        cases heq
        exact absurd hq.symm hnot
      · obtain ⟨_, _, _, heq, hr, hq⟩ := phase_rider hriding
        rw [hplace] at heq
        cases heq
        cases hq
  | stores t r' hon hr hpos hpos' hset hreq =>
    rcases List.mem_cons.mp he with rfl | he
    · rw [hpos', Function.update_self] at hplace
      cases hplace
      exact absurd rfl hne
    · rw [hreq]
      exact hkept hpos' he (h.fresh hpos hr he)
  | files t r' hon hr hpos hpos' hset hreq =>
    have ht : t ∈ tids σ.last := mem_tids_iff.mpr (hok.running t hon)
    have hp : phase (σ.pos t) = some .between := by
      rw [hpos]
      exact phase_of hr
    obtain ⟨e', he', rfl⟩ := h.own.waiting t ht _ hp (Or.inl rfl)
    have hslot := h.own.second e' he' hp
    rw [hreq]
    by_cases heq : e = e'
    · subst heq
      rw [hpos', Function.update_self] at hplace
      cases hplace
      rw [hslot, Function.update_self]
    · rw [Function.update_of_ne fun hsame => heq (h.own.apart e he e' he' (hsame.trans hslot.symm))]
      exact hkept hpos' he fun htid => heq (h.once e he e' he' htid)
  | counts t r' hon hr hpos hpos' hreq | leaves t r' hon hr hpos hpos' hreq =>
    rw [hreq]
    by_cases htid : e.tid = t
    · subst htid
      rw [hpos', Function.update_self] at hplace
      cases hplace
      exact h.own.goal e he _ _ _ hpos (by simp)
    · exact hkept hpos' he htid
  | marks d i n x hon hpos hpos' hset hreq =>
    obtain ⟨he, hslot⟩ := List.mem_filter.mp he
    rw [hreq, Function.update_of_ne (of_decide_eq_true hslot)]
    refine hkept hpos' he ?_
    intro htid
    rw [hpos', htid, Function.update_self] at hplace
    cases hplace

include hcompany in
theorem Ledger.beat : Ledger σ' requests' where
  own :=
    ⟨h.waiting_step hbeat hok hc hl hslots horder, h.inside_step hok hl hcompany hslots,
      h.apart_step hok hcompany hslots horder, h.second_step hok hslots horder,
      h.goal_step hbeat hok hc hl hslots⟩
  never := h.never.beat hc hok hl.valid hbeat
  known := h.known_step hok hslots hbeat.last_le
  room := h.room_step hok hl hcompany hslots hbeat.last_le
  once := h.once_step hslots
  alone := h.alone_step hbeat hok hc hl hslots horder

end Beat

theorem booked_step {tick : Tick} {a b : World Lift Place × List Request}
    (h : booked g l tick a = some b) :
    a.1.step g (program l) tick = some b.1 ∧ b.2 = noted a.1.stage b.1.stage a.2 := by
  obtain ⟨w, hstep, rfl⟩ := Option.map_eq_some_iff.mp h
  exact ⟨hstep, rfl⟩

theorem noted_same : noted σ σ requests = requests := by
  unfold noted
  split
  · rfl
  · exact if_pos rfl

theorem Starts.ledger (h : Starts l w₀) : Ledger w₀.stage [] := by
  have hphase : ∀ u, phase (w₀.stage.pos u) = none := fun u => by rw [h.pos]; rfl
  refine ⟨⟨fun u _ p hp => ?_, by simp, by simp, by simp, by simp⟩, fun u _ o r q hpos => ?_,
    by simp, by simp, by simp, fun u _ v _ p p' hp => ?_⟩
  · cases (hphase u).symm.trans hp
  · cases (h.pos u).symm.trans hpos
  · cases (hphase u).symm.trans hp

/-- In a run in which the order is kept no director loses its slot. -/
theorem slots_kept (hl : Admitted l) (h₀ : Starts l w₀)
    (hrun : Run (booked g l) (fun tick x => EntersOwn tick x.1 ∧
      (AtStatement tick x.1 → ∀ t ∈ x.1.stage.on, InOrder x.1.stage x.2 t))
      (w₀, []) (w, requests)) : OwnSlots w.stage requests := by
  have hledger := h₀.observed Prod.fst (I := fun x => Ledger x.1.stage x.2) hl hrun
    (fun _ _ _ hstep => (booked_step hstep).1) (fun _ _ hok => hok.1) h₀.ledger
    (fun tick a b hstep heq h => by rwa [(booked_step hstep).2, heq, noted_same])
    fun tick a b hstep htick hok ho hcompany hbeat hat h => by
      have hslots := slot_beat a.2 ho hcompany hok hl.valid h.never hbeat
      rw [← (booked_step hstep).2] at hslots
      exact h.beat hbeat hok ho.cast hl hcompany hslots fun hgoes => htick.2 (hat hgoes)
  exact hledger.2.2.2.own

/-- A run with the requests is found by computing it. -/
theorem exists_booked (l : List Arrival) (g : Grain)
    (ok : Tick → World Lift Place × List Request → Prop) [∀ tick x, Decidable (ok tick x)]
    (ticks : List Tick) (good : World Lift Place × List Request → Bool)
    (h : ((World.boot (program l) objects opened 5).bind fun w =>
      play (booked g l) ok ticks (w, [])).any good = true) :
    ∃ w₀ x, Starts l w₀ ∧ Run (booked g l) ok (w₀, []) x ∧ good x = true := by
  obtain ⟨x, hx, hgood⟩ := (Option.any_eq_true ..).mp h
  obtain ⟨w₀, h₀, hplay⟩ := Option.bind_eq_some_iff.mp hx
  obtain ⟨path, hpath, hall⟩ := path_of_play hplay
  exact ⟨w₀, x, starts_of_boot h₀, hpath.run hall, hgood⟩

/-- Three directors; the first leaves before the last arrives. -/
def changing : List Arrival :=
  [.yield, .rider ⟨.director, 1, 2⟩, .rider ⟨.director, 1, 5⟩, .yield, .yield, .yield, .yield,
    .yield, .rider ⟨.director, 3, 4⟩]

theorem admitted_changing : Admitted changing := by
  refine ⟨fun r hr => ?_, by decide, by decide, by decide⟩
  simp only [changing, List.mem_cons, reduceCtorEq, List.not_mem_nil, or_false, false_or,
    Arrival.rider.injEq] at hr
  rcases hr with rfl | rfl | rfl <;> exact ⟨by decide, by decide, by decide⟩

/-- The last director stores in the slot of the second, which is in the elevator. -/
theorem slot_overwritten :
    ¬ ∀ (l : List Arrival) (w₀ w : World Lift Place) (requests : List Request), Admitted l →
      Starts l w₀ → Run (booked .statement l) (fun tick x => EntersOwn tick x.1)
        (w₀, []) (w, requests) → OwnSlots w.stage requests := by
  intro hown
  obtain ⟨w₀, x, h₀, hrun, hgood⟩ := exists_booked changing .statement
    (fun tick x => EntersOwn tick x.1) (List.replicate 332 .run)
    (fun x => ∃ e ∈ x.2, ∃ e' ∈ x.2, e.slot = e'.slot ∧ e ≠ e') (by decide +kernel)
  obtain ⟨e, he, e', he', hslot, hne⟩ := of_decide_eq_true hgood
  exact hne ((hown changing w₀ x.1 x.2 admitted_changing h₀ hrun).apart e he e' he' hslot)

/-- Until the last director arrives, the second one has its own slot. -/
theorem slots_kept_second :
    ∃ (w₀ w : World Lift Place) (requests : List Request), Starts changing w₀ ∧ requests ≠ [] ∧
      w.shared.setOf .director = 1 ∧ OwnSlots w.stage requests := by
  obtain ⟨w₀, x, h₀, hrun, hgood⟩ := exists_booked changing .statement
    (fun tick x => EntersOwn tick x.1 ∧
      (AtStatement tick x.1 → ∀ t ∈ x.1.stage.on, InOrder x.1.stage x.2 t))
    (List.replicate 322 .run) (fun x => x.2 ≠ [] ∧ x.1.shared.setOf .director = 1)
    (by decide +kernel)
  obtain ⟨hne, hone⟩ := of_decide_eq_true hgood
  exact ⟨w₀, x.1, x.2, h₀, hne, hone, slots_kept admitted_changing h₀ hrun⟩

end Ledger

end UserThreads.Elevator
