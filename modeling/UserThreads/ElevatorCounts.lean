import UserThreads.ElevatorVisits

/-!
The counters of the elevator. Each one is at all times the number of the riders at certain
places: a rider that has changed a counter and not changed it back weighs one. The riders that
are there and those that are still to come make up the arrivals, so there are no more of a
rank than arrive.
-/
namespace UserThreads.Elevator

open Threads Runs Tallies MultilevelQueue

variable {l : List Arrival} {s s' : Lift} {place : Place} {x y : Option Op × Place}
  {σ σ' : Stage Lift Place} {t u v : Tid} {r : Rider} {o : Option Op} {f : ℤ} {k : Rank}

/-- The counters that riders change back: `numRiders`, those of the classes aboard and of the
classes registered, and `numWaiters` of a floor. -/
inductive Counter
  | inside
  | aboard (k : Rank)
  | registered (k : Rank)
  | bound (f : ℤ)

namespace Counter

def value (g : Lift) : Counter → ℤ
  | inside => g.numRiders
  | aboard k => g.riders k
  | registered k => g.setOf k
  | bound f => g.numWaiters f

/-- The rider at the place has changed the counter and not changed it back. -/
def holds (r : Rider) : Counter → Stand → Bool
  | inside, .enterRank | inside, .exit => true
  | aboard k, .exit | aboard k, .exitRank => r.rank = k
  | registered k, .storeStart | registered k, .storeEnd => r.rank = k ∧ r.rank = .president
  | registered k, .await | registered k, .uncountFloor | registered k, .enter => r.rank = k
  | registered k, .enterRank | registered k, .exit | registered k, .exitRank => r.rank = k
  | registered k, .uncount => r.rank = k
  | inside, .uncountWaiter | inside, .request | inside, .sigRequest => true
  | inside, .awaitFloor | inside, .leaveFloor => true
  | aboard k, .uncountWaiter | aboard k, .request | aboard k, .sigRequest => r.rank = k
  | aboard k, .awaitFloor | aboard k, .leaveFloor => r.rank = k
  | registered k, .uncountWaiter | registered k, .request | registered k, .sigRequest => r.rank = k
  | registered k, .awaitFloor | registered k, .leaveFloor => r.rank = k
  | bound f, .sigRequest | bound f, .awaitFloor | bound f, .leaveFloor => r.floorE = f
  | _, _ => false

def weight (c : Counter) : Option Op × Place → ℤ
  | (_, .rider r p) => if c.holds r p then 1 else 0
  | _ => 0

theorem weight_nonneg (c : Counter) (x : Option Op × Place) : 0 ≤ c.weight x := by
  obtain ⟨o, place⟩ := x
  cases place with
  | rider r p =>
    change (0 : ℤ) ≤ if c.holds r p then 1 else 0
    split <;> omega
  | _ => exact le_rfl

end Counter

/-- Every counter is the number of the riders that hold it. -/
def Counted (σ : Stage Lift Place) : Prop := ∀ c : Counter, c.value σ.shared = σ.total c.weight

theorem bump_self {ι : Type} [DecidableEq ι] (g : ι → ℤ) (i : ι) (n : ℤ) : bump g i n i = g i + n :=
  Function.update_self ..

theorem bump_of_ne {ι : Type} [DecidableEq ι] {g : ι → ℤ} {i j : ι} (h : j ≠ i) (n : ℤ) :
    bump g i n j = g j :=
  Function.update_of_ne h ..

theorem storeStart_value (c : Counter) (g : Lift) (k : Rank) (n : ℤ) :
    c.value (g.storeStart k n) = c.value g := by
  cases k <;> cases c <;> rfl

theorem storeEnd_value (c : Counter) (g : Lift) (k : Rank) (n : ℤ) :
    c.value (g.storeEnd k n) = c.value g := by
  cases k <;> cases c <;> rfl

/-- A rider changes a counter when it comes to hold it or lets it go. -/
theorem rider_counts {q q' : Stand} {o' : Option Op} (hr : r.Valid)
    (h : Advance (fun g => rider g r) s (o, q) s' (o', q'))
    (hfloor : (o, q) = (none, .leaveFloor) → s.currentFloor = r.floorE) (c : Counter) :
    c.value s' + (if c.holds r q then 1 else 0) = c.value s + if c.holds r q' then 1 else 0 := by
  cases h with
  | ret => rfl
  | call op _ _ hcode =>
    cases q with
    | broadcast i =>
      obtain rfl := broadcast_call hcode
      cases c <;> rfl
    | _ =>
      cases hcode
      try (cases c <;> rfl)
  | act _ _ _ hcode =>
    cases q with
    | broadcast i =>
      obtain ⟨rfl, rfl⟩ := broadcast_act hcode
      cases c <;> rfl
    | sigElevator | awaitEmpty | await | sigRequest | awaitFloor | sigExit | exited | gone =>
      cases hcode
    | start =>
      have hdiffer : r.floorS < r.floorE ∨ r.floorE < r.floorS := lt_or_gt_of_ne hr.differ
      simp only [rider, if_pos hdiffer] at hcode
      cases hcode
      cases c <;> rfl
    | storeStart | clearStart =>
      cases hcode
      rw [storeStart_value]
      cases c <;> rfl
    | clearEnd =>
      cases hcode
      rw [storeEnd_value]
      cases c <;> rfl
    | storeEnd =>
      cases hcode
      rw [storeEnd_value]
      cases hk : r.rank <;> cases c <;> simp [Counter.holds, hk]
    | countWaiter | leaveEmpty =>
      cases hcode
      cases hk : r.rank <;> cases c <;> simp [Counter.holds, Counter.value, Rank.registers, hk]
    | isEmpty =>
      injection hcode with hs hnext
      split at hnext <;> subst hs hnext
      · cases c <;> rfl
      · cases hk : r.rank <;> cases c <;> simp [Counter.holds, Counter.value, Rank.registers, hk]
    | count | uncount =>
      cases hcode
      cases c with
      | registered j =>
        cases hk : r.rank <;> cases j <;> simp [Counter.holds, Counter.value, bump, hk]
      | _ => cases r.rank <;> simp [Counter.holds, Counter.value]
    | enter | exit =>
      cases hcode
      cases c <;> simp [Counter.holds, Counter.value]
    | enterRank | exitRank =>
      cases hcode
      cases c with
      | aboard j =>
        by_cases hk : r.rank = j
        · subst hk
          simp [Counter.holds, Counter.value, bump_self]
        · simp [Counter.holds, Counter.value, bump_of_ne (Ne.symm hk), hk]
      | _ => simp [Counter.holds, Counter.value]
    | request =>
      cases hcode
      cases c with
      | bound f =>
        by_cases hf : r.floorE = f
        · subst hf
          simp [Counter.holds, Counter.value, bump_self]
        · simp [Counter.holds, Counter.value, bump_of_ne (Ne.symm hf), hf]
      | _ => simp [Counter.holds, Counter.value]
    | leaveFloor =>
      cases hcode
      rw [hfloor rfl]
      cases c with
      | bound f =>
        by_cases hf : r.floorE = f
        · subst hf
          simp [Counter.holds, Counter.value, bump_self]
        · simp [Counter.holds, Counter.value, bump_of_ne (Ne.symm hf), hf]
      | _ => simp [Counter.holds, Counter.value]
    | _ =>
      injection hcode with hs hnext
      try (repeat' split at hnext)
      all_goals subst hs hnext
      all_goals cases c <;> rfl

/-- The elevator sets `elv.numRiders` before its first `t_wait` and changes no other counter. -/
theorem post_counts {q : Post} {z : Option Op × Post}
    (h : Advance elevatorThread s (o, q) s' z) (c : Counter) :
    c.value s' = c.value s ∨ q = .noRiders ∧ s' = { s with numRiders := 0 } := by
  cases h with
  | ret | call => exact Or.inl rfl
  | act _ next _ hcode =>
    cases q with
    | yields d n => cases n <;> cases hcode
    | isEdge d =>
      cases d <;> (injection hcode with hs; subst hs) <;> exact Or.inl rfl
    | firstWait | sigEnter | waitEnter | sigExit | waitExit | sleep => cases hcode
    | noRiders =>
      cases hcode
      exact Or.inr ⟨rfl, rfl⟩
    | _ =>
      injection hcode with hs
      subst hs
      left
      cases c <;> rfl

section Hired

/-- The rider of the rank that is just being forked. -/
def forking (k : Rank) : Option Op → ℤ
  | some (.tFork f _ _) => if f = k.rider then 1 else 0
  | _ => 0

/-- A thread that is a rider of the rank, or the riders of the rank that are still to come. -/
def employs (l : List Arrival) (k : Rank) : Option Op × Place → ℤ
  | (o, .arrivals rest) => forking k o + hired k rest
  | (_, .create _) | (_, .clear) | (_, .elevator) => hired k l
  | (_, .rider r _) => if r.rank = k then 1 else 0
  | (_, .post _) => 0

theorem hired_nonneg (k : Rank) (l : List Arrival) : 0 ≤ hired k l := by
  induction l with
  | nil => exact le_rfl
  | cons a rest ih =>
    cases a with
    | rider r =>
      change 0 ≤ (if r.rank = k then 1 else 0) + hired k rest
      split <;> omega
    | yield => exact ih

theorem rider_inj {j : Rank} : j.rider = k.rider ↔ j = k := by
  cases j <;> cases k <;> decide

theorem forking_nonneg (k : Rank) (o : Option Op) : 0 ≤ forking k o := by
  unfold forking
  split
  · split <;> omega
  · exact le_rfl

theorem rider_ne (k : Rank) : 1 ≠ k.rider := by
  cases k <;> decide

theorem employs_nonneg (l : List Arrival) (k : Rank) (x : Option Op × Place) :
    0 ≤ employs l k x := by
  obtain ⟨o, place⟩ := x
  cases place with
  | create | clear | elevator => exact hired_nonneg k l
  | arrivals rest => exact add_nonneg (forking_nonneg k o) (hired_nonneg k rest)
  | post => exact le_rfl
  | rider r =>
    change 0 ≤ if r.rank = k then (1 : ℤ) else 0
    split <;> omega

/-- The first thread has as many riders to come until it has forked one. -/
theorem employs_advance (hx : Early l x ∨ Late l x) (hadv : Advance (program l).code s x s' y) :
    employs l k y = employs l k x := by
  rcases hx with hx | hx
  · cases hx with
    | create n =>
      cases n <;> cases hadv <;> rename_i hcode <;> cases hcode <;> rfl
    | created n =>
      cases hadv
      rfl
    | clear =>
      cases hadv <;> rename_i hcode <;> cases hcode
      rfl
    | elevator =>
      cases hadv <;> rename_i hcode <;> cases hcode
      change (if 1 = k.rider then 1 else 0) + hired k l = hired k l
      rw [if_neg (rider_ne k), zero_add]
    | fork =>
      cases hadv
      rename_i hop
      exact absurd rfl (hop _ _ _)
  · cases hx with
    | arrivals rest =>
      cases rest with
      | nil => cases hadv <;> rename_i hcode <;> cases hcode
      | cons a rest =>
        cases a with
        | rider r =>
          cases hadv <;> rename_i hcode <;> cases hcode
          change (if r.rank.rider = k.rider then 1 else 0) + hired k rest =
            0 + ((if r.rank = k then 1 else 0) + hired k rest)
          rw [zero_add]
          simp only [rider_inj]
        | yield =>
          cases hadv <;> rename_i hcode <;> cases hcode
          rfl
    | rider r rest =>
      cases hadv
      rename_i hop
      exact absurd rfl (hop _ _ _)
    | yield rest =>
      cases hadv
      rfl

/-- A fork makes a rider that was to come a rider that is there. -/
theorem employs_fork {g : ThreadFunc} {a : AnyPtr} {p : ℤ}
    (hx : Early l (some (.tFork g a p), place) ∨ Late l (some (.tFork g a p), place)) :
    employs l k (none, place) + employs l k (none, (program l).body g a) =
      employs l k (some (.tFork g a p), place) := by
  rcases hx with hx | hx
  · cases hx
    change 0 + hired k l + 0 = (if 1 = k.rider then 1 else 0) + hired k l
    rw [if_neg (rider_ne k), add_zero]
  · cases hx with
    | rider r rest =>
      have hrank : ∀ j : Rank, employs l k (none, (program l).body j.rider r.arg) =
          if j.rider = k.rider then 1 else 0 := by
        intro j
        simp only [rider_inj]
        cases j <;> rfl
      rw [hrank]
      change 0 + hired k rest + _ = (if r.rank.rider = k.rider then 1 else 0) + hired k rest
      omega

/-- The riders of a rank that are there and those to come are the arrivals. -/
def Numbered (l : List Arrival) (σ : Stage Lift Place) : Prop :=
  ∀ k, σ.total (employs l k) = hired k l

theorem Numbered.beat (h : Numbered l σ) (hc : Cast l σ) (hok : σ.Ok (program l))
    (hbeat : Beat (program l) σ σ') : Numbered l σ' := by
  intro k
  have hkept := hbeat.shifts.conserves hok (employs l k) (fun _ => 0) ?_ ?_
  · have hbefore := h k
    omega
  · intro t x y hon hpos hadv
    subst hpos
    congr 1
    rcases on_cases hok hon with rfl | ⟨rfl, htwo⟩ | ⟨hthree, hle⟩
    · exact (employs_advance hc.pos_opener hadv).symm
    · obtain ⟨o, q, hq⟩ := hc.pos_post htwo
      rw [hq] at hadv ⊢
      obtain ⟨q', hq', -⟩ := advance_post hadv
      rw [show y = (y.1, .post q') from Prod.ext rfl hq']
      rfl
    · obtain ⟨o, r, q, hq, -⟩ := hc.pos_rider hthree hle
      rw [hq] at hadv ⊢
      obtain ⟨q', hq', -⟩ := advance_rider hadv
      rw [show y = (y.1, .rider r q') from Prod.ext rfl hq']
      rfl
  · intro t f v p place hon hpos
    obtain rfl := hc.forks hok hon hpos
    have hopener := hc.pos_opener
    rw [hpos] at hopener
    exact employs_fork hopener

/-- There are no more riders of a rank than arrive. -/
theorem Numbered.length_le (h : Numbered l σ) (us : List Tid) (hnodup : us.Nodup)
    (hus : ∀ u ∈ us, 1 ≤ u ∧ u ≤ σ.last ∧ ∃ o r q, σ.pos u = (o, .rider r q) ∧ r.rank = k) :
    us.length ≤ hired k l := by
  rw [← h k]
  refine length_le_tally (employs_nonneg l k) hnodup fun u hu => ?_
  obtain ⟨hone, hle, o, r, q, hpos, hrank⟩ := hus u hu
  refine ⟨mem_tids_iff.mpr ⟨hone, hle⟩, ?_⟩
  rw [hpos]
  exact le_of_eq (if_pos hrank).symm

/-- There is one president. -/
theorem Numbered.president (h : Numbered l σ) (hl : Admitted l) (hone : 1 ≤ u) (hle : u ≤ σ.last)
    {r' : Rider} {q q' : Stand} {o' : Option Op} (hu : σ.pos u = (o, .rider r q))
    (hr : r.rank = .president) (hone' : 1 ≤ v) (hle' : v ≤ σ.last)
    (hv : σ.pos v = (o', .rider r' q')) (hr' : r'.rank = .president) : u = v := by
  by_contra hne
  have hlength := h.length_le [u, v] (k := .president)
    (List.nodup_cons.mpr ⟨by simpa using hne, List.nodup_singleton v⟩) fun w hw => by
      rcases List.mem_cons.mp hw with rfl | hw
      · exact ⟨hone, hle, o, r, q, hu, hr⟩
      · obtain rfl := List.mem_singleton.mp hw
        exact ⟨hone', hle', o', r', q', hv, hr'⟩
  have hpresident := hl.president
  simp only [List.length_cons, List.length_nil] at hlength
  omega

end Hired

end UserThreads.Elevator
