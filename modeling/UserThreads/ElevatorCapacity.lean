import UserThreads.ElevatorRanks

/-!
How many riders are in the elevator. The riders aboard, the one that is about to enter and those
that the elevator will still call in its visit are at most five together. The branch of the
employees compares with the free spaces, and that of the president finds the elevator empty. In
the branch of the directors it is the slots that bound the number, and for three of them to be
counted there must not be three directors aboard already.
-/
namespace UserThreads.Elevator

open Threads Runs Tallies MultilevelQueue

variable {l : List Arrival} {s s' : Lift} {place : Place} {x y : Option Op × Place}
  {σ σ' : Stage Lift Place} {t u v : Tid} {r : Rider} {o o' : Option Op} {q q' : Stand}
  {p p' : Post} {j k : Rank} {w₀ w : World Lift Place} {g : Grain}

/-- There is room for the riders aboard, and each is counted in a class. -/
structure WithinCapacity (σ : Stage Lift Place) : Prop where
  bound : σ.shared.numRiders ≤ maxRiders
  classes : Iterates σ → σ.shared.numRiders =
    σ.shared.riders .president + σ.shared.riders .director + σ.shared.riders .employee

/-- `ElevatorThread` counts a third director for entering, with three of them aboard. -/
def isOverbooking (g : Lift) : Option Op × Place → Bool
  | (none, .post (.markEnter _ _ e _)) => e = 2 ∧ g.riders .director = 3
  | _ => false

/-- How many riders the elevator will still call in to enter. -/
def rest : Option Op × Place → ℤ
  | (_, .post (.openDoor n _ _ _)) => max n 0
  | (_, .post (.enters i n _ _ _)) => max (n - i) 0
  | (_, .post (.sigEnter i n _ _ _)) | (some _, .post (.waitEnter i n _ _ _)) => n - i
  | (none, .post (.waitEnter i n _ _ _)) => n - i - 1
  | _ => 0

/-- The rider has been called and has not executed `elv.numRiders++`. -/
def isCalled : Option Op × Place → Bool
  | (none, .rider _ .uncountFloor) | (_, .rider _ .enter) => true
  | _ => false

/-- What the elevator knows of the riders aboard before it lets others in. -/
def Planned (g : Lift) : Post → Prop
  | .isUp s | .numEnter _ s | .numExit _ s _ => s = maxRiders - g.numRiders
  | .isPresident _ s _ _ | .isDirector _ s _ _ | .isEmployee _ s _ _ => s = maxRiders - g.numRiders
  | .isAwaited _ s _ _ | .isWorth _ s _ _ => s = maxRiders - g.numRiders
  | .isBehind _ | .turn _ | .isHere _ | .isBack _ | .turnBack _ => g.numRiders < maxRiders
  | .slot _ i e _ => g.numRiders = g.riders .director ∧ g.riders .director ≤ 3 ∧ 0 ≤ e ∧ e ≤ i ∧
      i ≤ 3 ∧ (g.riders .director = 3 → e ≤ 2)
  | .markEnter _ i e _ => g.numRiders = g.riders .director ∧ g.riders .director ≤ 3 ∧ 0 ≤ e ∧
      e ≤ i ∧ i < 3 ∧ (g.riders .director = 3 → e ≤ 2)
  | .isExit _ i e _ | .markExit _ i e _ => g.numRiders = g.riders .director ∧
      g.riders .director ≤ 3 ∧ 0 ≤ e ∧ e ≤ i + 1 ∧ i < 3 ∧ (g.riders .director = 3 → e ≤ 2)
  | .sigEnter i n _ _ _ | .waitEnter i n _ _ _ => i < n
  | _ => True

/-- There is room for all that are aboard, called or to be called. -/
structure Spacious (σ : Stage Lift Place) : Prop where
  planned : ∀ o p, σ.pos 2 = (o, .post p) → Planned σ.shared p
  room : σ.shared.numRiders + rest (σ.pos 2) ≤ maxRiders
  called : ∀ u, σ.Awake u → isCalled (σ.pos u) = true →
    σ.shared.numRiders + 1 + rest (σ.pos 2) ≤ maxRiders

/-- A rider between its two increments or its two decrements can run. -/
def ChangesAwake (σ : Stage Lift Place) : Prop :=
  ∀ u ∈ tids σ.last, ∀ o r q, σ.pos u = (o, .rider r q) → q = .enterRank ∨ q = .exitRank →
    σ.Awake u

theorem Planned.congr (h : Planned s p) (hnum : s'.numRiders = s.numRiders)
    (hriders : s'.riders = s.riders) : Planned s' p := by
  unfold Planned at h ⊢
  rw [hnum, hriders]
  exact h

/-- What the elevator reads of the classes in its tests. -/
structure Tested (g : Lift) : Prop where
  classes : g.numRiders = g.riders .president + g.riders .director + g.riders .employee
  president : g.riders .president ≤ 1
  registered : g.riders .president ≤ g.setOf .president
  nonneg : 0 ≤ g.riders .president
  directors : g.riders .director ≤ 3

/-- Each statement of `ElevatorThread` leaves room for the riders that it plans to let in. -/
theorem post_planned (h : Advance elevatorThread s (o, p) s' (o', p')) (hp : Planned s p)
    (hroom : s.numRiders + rest (o, .post p) ≤ maxRiders)
    (htested : (∃ d a n x, (o, p) = (none, .isPresident d a n x)) ∨
      (∃ d a n x, (o, p) = (none, .isDirector d a n x)) → Tested s)
    (hbooked : isOverbooking s (o, .post p) = false) :
    Planned s' p' ∧ s'.numRiders + rest (o', .post p') ≤ maxRiders := by
  have hfive : maxRiders = 5 := rfl
  cases h with
  | ret op =>
    refine ⟨hp, ?_⟩
    cases p with
    | waitEnter i n x d k =>
      change s.numRiders + (n - i) ≤ maxRiders at hroom
      change s.numRiders + (n - i - 1) ≤ maxRiders
      omega
    | _ => exact hroom
  | call op _ _ hcode =>
    cases p with
    | yields d n => cases n <;> cases hcode <;> exact ⟨trivial, hroom⟩
    | isEdge d => cases d <;> cases hcode
    | waitEnter i n x d k =>
      cases hcode
      have hlt : i < n := hp
      refine ⟨trivial, ?_⟩
      change s.numRiders + (n - i - 1) ≤ maxRiders at hroom
      change s.numRiders + max (n - (i + 1)) 0 ≤ maxRiders
      omega
    | sigEnter =>
      cases hcode
      exact ⟨hp, hroom⟩
    | _ =>
      cases hcode
      try exact ⟨trivial, hroom⟩
  | act _ _ _ hcode =>
    cases p with
    | yields d n => cases n <;> cases hcode
    | firstWait | sigEnter | waitEnter | sigExit | waitExit | sleep => cases hcode
    | isEdge d =>
      cases d <;> (injection hcode with hs hnext; split at hnext <;> subst hs hnext) <;>
        exact ⟨trivial, hroom⟩
    | noRiders =>
      cases hcode
      exact ⟨trivial, (show (0 : ℤ) + 0 ≤ maxRiders by decide)⟩
    | spaces =>
      cases hcode
      exact ⟨rfl, hroom⟩
    | isUp | numEnter | numExit =>
      cases hcode
      exact ⟨hp, hroom⟩
    | isPresident d a n x =>
      have ht := htested (Or.inl ⟨d, a, n, x, rfl⟩)
      obtain ⟨hclasses, hone, -⟩ := ht
      injection hcode with hs hnext
      split at hnext <;> rename_i htest <;> subst hs hnext
      · refine ⟨?_, hroom⟩
        obtain ⟨-, hdirector, hemployee⟩ := htest
        change s.numRiders < maxRiders
        omega
      · exact ⟨hp, hroom⟩
    | isDirector d a n x =>
      have ht := htested (Or.inr ⟨d, a, n, x, rfl⟩)
      obtain ⟨hclasses, -, hreg, hnonneg, hthree⟩ := ht
      injection hcode with hs hnext
      split at hnext <;> rename_i htest <;> subst hs hnext
      · refine ⟨?_, hroom⟩
        obtain ⟨hpresident, -, hemployee⟩ := htest
        exact ⟨by omega, hthree, le_rfl, le_rfl, by decide, fun _ => by decide⟩
      · exact ⟨hp, hroom⟩
    | slot d i e x =>
      obtain ⟨hnum, hthree, he, hei, hi, hfull⟩ := hp
      injection hcode with hs hnext
      split at hnext
      · rename_i hlt
        split at hnext <;> subst hs hnext
        · exact ⟨⟨hnum, hthree, he, hei, hlt, hfull⟩, hroom⟩
        · exact ⟨⟨hnum, hthree, he, by omega, hlt, hfull⟩, hroom⟩
      · split at hnext <;> subst hs hnext
        · refine ⟨trivial, ?_⟩
          change s.numRiders + max e 0 ≤ maxRiders
          have hcases : s.riders .director = 3 ∨ s.riders .director ≤ 2 := by omega
          rcases hcases with heq | hle
          · have htwo := hfull heq
            omega
          · omega
        · exact ⟨trivial, hroom⟩
    | markEnter d i e x =>
      obtain ⟨hnum, hthree, he, hei, hi, hfull⟩ := hp
      cases hcode
      refine ⟨⟨hnum, hthree, by omega, by omega, hi, fun heq => ?_⟩, hroom⟩
      have hnot : ¬ (e = 2 ∧ s.riders .director = 3) := of_decide_eq_false hbooked
      have htwo := hfull heq
      by_contra hlarge
      exact hnot ⟨by omega, heq⟩
    | isExit d i e x =>
      obtain ⟨hnum, hthree, he, hei, hi, hfull⟩ := hp
      injection hcode with hs hnext
      split at hnext <;> subst hs hnext
      · exact ⟨⟨hnum, hthree, he, hei, hi, hfull⟩, hroom⟩
      · exact ⟨⟨hnum, hthree, he, hei, by omega, hfull⟩, hroom⟩
    | markExit d i e x =>
      obtain ⟨hnum, hthree, he, hei, hi, hfull⟩ := hp
      cases hcode
      exact ⟨⟨hnum, hthree, he, hei, by omega, hfull⟩, hroom⟩
    | isWorth d a n x =>
      have hspaces : a = maxRiders - s.numRiders := hp
      change s.numRiders + 0 ≤ maxRiders at hroom
      injection hcode with hs hnext
      split at hnext <;> subst hs hnext
      · refine ⟨trivial, ?_⟩
        change s.numRiders + max (if a < n then a else n) 0 ≤ maxRiders
        split <;> omega
      · exact ⟨trivial, hroom⟩
    | isHere d =>
      have hlt : s.numRiders < maxRiders := hp
      injection hcode with hs hnext
      split at hnext <;> subst hs hnext
      · refine ⟨trivial, ?_⟩
        change s.numRiders + max 1 0 ≤ maxRiders
        omega
      · exact ⟨hp, hroom⟩
    | turnBack d =>
      have hlt : s.numRiders < maxRiders := hp
      cases hcode
      refine ⟨trivial, ?_⟩
      change s.numRiders + max 1 0 ≤ maxRiders
      omega
    | isBehind d | isBack d =>
      injection hcode with hs hnext
      split at hnext <;> subst hs hnext <;> exact ⟨by first | exact hp | trivial, hroom⟩
    | turn d =>
      cases hcode
      exact ⟨hp, hroom⟩
    | openDoor n x d k =>
      cases hcode
      refine ⟨trivial, ?_⟩
      change s.numRiders + max n 0 ≤ maxRiders at hroom
      change s.numRiders + max (n - 0) 0 ≤ maxRiders
      omega
    | enters i n x d k =>
      change s.numRiders + max (n - i) 0 ≤ maxRiders at hroom
      injection hcode with hs hnext
      split at hnext <;> rename_i hlt <;> subst hs hnext
      · refine ⟨hlt, ?_⟩
        change s.numRiders + (n - i) ≤ maxRiders
        omega
      · refine ⟨trivial, ?_⟩
        change s.numRiders + 0 ≤ maxRiders
        omega
    | closeDoor k =>
      cases hcode
      cases k <;> exact ⟨trivial, hroom⟩
    | isEmployee | isAwaited =>
      injection hcode with hs hnext
      try split at hnext
      all_goals subst hs hnext
      all_goals exact ⟨by first | exact hp | trivial, hroom⟩
    | _ =>
      injection hcode with hs hnext
      try (repeat' split at hnext)
      all_goals subst hs hnext
      all_goals exact ⟨trivial, hroom⟩

/-- In a visit the plan does not depend on who is aboard. -/
theorem Planned.visiting (h : Planned s p) (hv : isVisiting (o, .post p) = true) :
    Planned s' p := by
  cases p with
  | enters | exits | waitExit => trivial
  | waitEnter => exact h
  | _ => cases o <;> cases hv

/-- An elevator that has signalled calls nobody else before it sleeps. -/
theorem signalled_rest (h : Advance elevatorThread s (o, p) s' (o', p')) (hp : Planned s p)
    (hsignalled : isSignalled (o, .post p) = true) :
    s' = s ∧ rest (o', .post p') ≤ rest (o, .post p) := by
  cases h with
  | ret op => cases p <;> cases hsignalled <;> exact ⟨rfl, le_rfl⟩
  | act _ _ _ hcode => cases p <;> cases hsignalled <;> cases hcode
  | call _ _ _ hcode =>
    cases p with
    | waitEnter i n x d k =>
      cases hcode
      have hlt : i < n := hp
      refine ⟨rfl, ?_⟩
      change max (n - (i + 1)) 0 ≤ n - i - 1
      omega
    | waitExit =>
      cases hcode
      exact ⟨rfl, le_rfl⟩
    | _ => cases hsignalled

/-- After it has counted a director for entering the elevator is at the next test. -/
theorem overbooking_next (h : Advance elevatorThread s (o, p) s' (o', p'))
    (hbooks : isOverbooking s (o, .post p) = true) : p' ≠ p := by
  cases p with
  | markEnter =>
    cases o with
    | none =>
      cases h <;> rename_i hcode <;> cases hcode
      simp
    | some => cases hbooks
  | _ => cases o <;> cases hbooks

/-- One more is aboard when a rider executes `elv.numRiders++`. -/
theorem rider_enters (h : Advance (fun g => rider g r) s (o, q) s' (o', q')) :
    s'.numRiders ≤ s.numRiders ∨
      (o, q) = (none, .enter) ∧ s'.numRiders = s.numRiders + 1 ∧ (o', q') = (none, .enterRank) := by
  cases h with
  | ret | call => exact Or.inl le_rfl
  | act _ _ _ hcode =>
    cases q with
    | broadcast i =>
      obtain ⟨rfl, rfl⟩ := broadcast_act hcode
      exact Or.inl le_rfl
    | sigElevator | awaitEmpty | await | sigRequest | awaitFloor | sigExit | exited | gone =>
      cases hcode
    | storeStart | clearStart =>
      cases hcode
      exact Or.inl (le_of_eq (storeStart_value .inside ..))
    | storeEnd | clearEnd =>
      cases hcode
      exact Or.inl (le_of_eq (storeEnd_value .inside ..))
    | enter =>
      cases hcode
      exact Or.inr ⟨rfl, rfl, rfl⟩
    | exit =>
      cases hcode
      refine Or.inl ?_
      change s.numRiders - 1 ≤ s.numRiders
      omega
    | _ =>
      injection hcode with hs
      subst hs
      exact Or.inl le_rfl

/-- A rider is called before it goes on in. -/
theorem rider_called (hr : r.Valid) (hwait : ∀ c, o ≠ some (.tWait c none))
    (hasks : ∀ op, o = some op → Asks r op q)
    (h : Advance (fun g => rider g r) s (o, q) s' (o', q'))
    (hcalled : isCalled (o', .rider r q') = true) : isCalled (o, .rider r q) = true := by
  cases h with
  | ret op =>
    cases hasks op rfl with
    | awaitEmpty | await | awaitFloor => exact absurd rfl (hwait _)
    | _ => cases hcalled
  | call op _ _ hcode => cases asks_of_code hcode <;> cases hcalled
  | act _ _ _ hcode =>
    cases q with
    | start =>
      have hdiffer : r.floorS < r.floorE ∨ r.floorE < r.floorS := lt_or_gt_of_ne hr.differ
      simp only [rider, if_pos hdiffer] at hcode
      cases hcode
      cases hcalled
    | broadcast i =>
      obtain ⟨rfl, rfl⟩ := broadcast_act hcode
      cases hcalled
    | uncountFloor => rfl
    | sigElevator | awaitEmpty | await | sigRequest | awaitFloor | sigExit | exited | gone =>
      cases hcode
    | leaveEmpty =>
      cases hcode
      cases hk : r.rank <;> rw [hk] at hcalled <;> cases hcalled
    | isEmpty =>
      injection hcode with hs hnext
      split at hnext <;> subst hnext
      · cases hcalled
      · cases hk : r.rank <;> rw [hk] at hcalled <;> cases hcalled
    | _ =>
      injection hcode with hs hnext
      try (repeat' split at hnext)
      all_goals subst hnext
      all_goals cases hcalled

/-- A rider comes to change its class by a statement. -/
theorem rider_changing (hasks : ∀ op, o = some op → Asks r op q)
    (h : Advance (fun g => rider g r) s (o, q) s' (o', q'))
    (hq : q' = .enterRank ∨ q' = .exitRank) : o = none ∧ q ≠ .gone := by
  cases h with
  | ret op =>
    have hop := hasks op rfl
    rcases hq with rfl | rfl <;> cases hop
  | call op _ _ hcode =>
    have hop := asks_of_code hcode
    rcases hq with rfl | rfl <;> cases hop
  | act _ _ _ hcode =>
    refine ⟨rfl, ?_⟩
    rintro rfl
    cases hcode

theorem called_rider (h : isCalled x = true) : ∃ o r q, x = (o, .rider r q) := by
  obtain ⟨o, place⟩ := x
  cases place with
  | rider r q => exact ⟨o, r, q, rfl⟩
  | _ => cases o <;> cases h

theorem called_stop (h : isCalled x = true) : stop x ≠ none := by
  obtain ⟨o, r, q, rfl⟩ := called_rider h
  cases q <;> cases o <;> first | exact Option.some_ne_none _ | cases h

theorem called_awake (h : isCalled x = true) : (∀ r, x ≠ (none, .rider r .start)) ∧ ¬ Ended x := by
  refine ⟨?_, ?_⟩
  · rintro r rfl
    cases h
  · rintro (rfl | ⟨r, rfl⟩) <;> cases h

/-- Whoever is aboard is registered. -/
theorem aboard_registered (k : Rank) (x : Option Op × Place) :
    (Counter.aboard k).weight x ≤ (Counter.registered k).weight x := by
  obtain ⟨o, place⟩ := x
  cases place with
  | rider r q => cases q <;> first | exact le_rfl | exact Counter.weight_nonneg (.registered k) _
  | _ => exact le_rfl

/-- Whoever is aboard is one of the arrivals. -/
theorem aboard_employed (k : Rank) (x : Option Op × Place) :
    (Counter.aboard k).weight x ≤ employs l k x := by
  obtain ⟨o, place⟩ := x
  cases place with
  | rider r q =>
    change (if (Counter.aboard k).holds r q then (1 : ℤ) else 0) ≤ if r.rank = k then 1 else 0
    by_cases hk : r.rank = k
    · rw [if_pos hk]
      split <;> omega
    · rw [if_neg hk, if_neg]
      cases q <;> simp [Counter.holds, hk]
  | _ => exact employs_nonneg l k _

/-- Between its two increments a rider is counted in no class, between its two decrements in one. -/
theorem inside_weight (h : ∀ o r q, x = (o, .rider r q) → q ≠ .enterRank ∧ q ≠ .exitRank) :
    Counter.inside.weight x = (Counter.aboard .president).weight x +
      (Counter.aboard .director).weight x + (Counter.aboard .employee).weight x := by
  obtain ⟨o, place⟩ := x
  cases place with
  | rider r q =>
    obtain ⟨hne, hne'⟩ := h o r q rfl
    cases q with
    | enterRank => exact absurd rfl hne
    | exitRank => exact absurd rfl hne'
    | uncountWaiter | request | sigRequest | awaitFloor | leaveFloor | exit =>
      cases hk : r.rank <;> simp [Counter.weight, Counter.holds, hk]
    | _ => rfl
  | _ => rfl

theorem ChangesAwake.beat (h : ChangesAwake σ) (hc : Cast l σ) (hok : σ.Ok (program l))
    (hl : AllValid l) (hbeat : Beat (program l) σ σ') : ChangesAwake σ' := by
  intro u hu o' r q' hpos' hq
  obtain ⟨hone, hle'⟩ := mem_tids_iff.mp hu
  have hkept : ∀ q, σ.pos u = (none, .rider r q) → q ≠ .gone → σ.Awake u → σ'.Awake u := by
    intro q hpos hne hawake
    refine hbeat.keeps_awake hawake (congrArg Prod.fst hpos) (not_over hc hpos ?_)
    rintro (heq | ⟨r', heq⟩) <;> cases heq
    exact hne rfl
  rcases hc.rider_before hok hl hbeat hone hle' hpos' with ⟨hle, o, q, hpos⟩ | ⟨-, hstart⟩
  · have hasks : ∀ op, o = some op → Asks r op q := fun op hop =>
      pending_rider hok (hpos.trans (by rw [hop]))
    rcases hc.rider_beat hok hbeat hone hle hpos with hsame | ⟨o'', q'', hon, hpos'', hadv⟩
    · cases (hpos.symm.trans hsame.symm).trans hpos'
      have hnone : o' = none := by
        cases o' with
        | none => rfl
        | some op =>
          have hop := hasks op rfl
          rcases hq with rfl | rfl <;> cases hop
      subst hnone
      refine hkept q' hpos ?_ (h u (mem_tids_iff.mpr ⟨hone, hle⟩) none r q' hpos hq)
      rintro rfl
      rcases hq with heq | heq <;> cases heq
    · cases hpos''.symm.trans hpos'
      obtain ⟨rfl, hne⟩ := rider_changing hasks hadv hq
      exact hkept q hpos hne (Or.inl hon)
  · subst hstart
    rcases hq with heq | heq <;> cases heq

/-- What the elevator reads in its tests. -/
theorem ChangesAwake.tested (h : ChangesAwake σ) (ho : Orderly l σ) (hok : σ.Ok (program l))
    (hl : Admitted l) (hcompany : Company l σ) (hon : σ.on = some 2)
    (hsignalled : isSignalled (σ.pos 2) = false) : Tested σ.shared := by
  have hcounted := hcompany.tallied.counted
  have hemployed : ∀ k, σ.shared.riders k ≤ hired k l := fun k =>
    (hcounted (.aboard k)).trans_le
      ((tally_le_tally (aboard_employed k)).trans_eq (hcompany.tour.numbered k))
  refine ⟨?_, le_trans (hemployed _) hl.president, ?_, ?_, le_trans (hemployed _) hl.directors⟩
  · have hweights : ∀ t ∈ tids σ.last, Counter.inside.weight (σ.pos t) =
        (Counter.aboard .president).weight (σ.pos t) + (Counter.aboard .director).weight (σ.pos t) +
          (Counter.aboard .employee).weight (σ.pos t) := by
      intro t ht
      refine inside_weight fun o r q hpos => not_or.mp fun hchanging => ?_
      obtain ⟨hone, hle⟩ := mem_tids_iff.mp ht
      have hthree := (ho.cast.is_rider hone hle hpos).1
      have hawake := h t ht o r q hpos hchanging
      rcases ho.urgent.elevator ho.cast hok hon hawake hthree with ⟨r', hr'⟩ | hended | hsig
      · rw [hpos] at hr'
        rcases hchanging with rfl | rfl <;> cases hr'
      · rw [hpos] at hended
        rcases hchanging with rfl | rfl <;> rcases hended with heq | ⟨r', heq⟩ <;> cases heq
      · rw [hsignalled] at hsig
        cases hsig
    calc σ.shared.numRiders
        = tally Counter.inside.weight (tids σ.last) σ.pos := hcounted .inside
      _ = tally (fun x => (Counter.aboard .president).weight x +
            (Counter.aboard .director).weight x + (Counter.aboard .employee).weight x)
            (tids σ.last) σ.pos := Finset.sum_congr rfl hweights
      _ = σ.shared.riders .president + σ.shared.riders .director + σ.shared.riders .employee := by
        rw [← tally_add, ← tally_add]
        exact congrArg₂ (· + ·) (congrArg₂ (· + ·) (hcounted (.aboard .president)).symm
          (hcounted (.aboard .director)).symm) (hcounted (.aboard .employee)).symm
  · exact (hcounted (.aboard .president)).trans_le
      ((tally_le_tally (aboard_registered _)).trans_eq (hcounted (.registered .president)).symm)
  · exact (tally_nonneg (Counter.weight_nonneg (.aboard .president))).trans_eq
      (hcounted (.aboard .president)).symm

theorem Spacious.rest_nonneg (h : Spacious σ) : 0 ≤ rest (σ.pos 2) := by
  rcases hpos : σ.pos 2 with ⟨o, place⟩
  cases place with
  | post p =>
    have hplanned := h.planned o p hpos
    cases p with
    | openDoor | enters => cases o <;> exact le_max_right ..
    | sigEnter i n x d k =>
      have hlt : i < n := hplanned
      cases o <;> exact (show 0 ≤ n - i by omega)
    | waitEnter i n x d k =>
      have hlt : i < n := hplanned
      cases o with
      | none => exact (show 0 ≤ n - i - 1 by omega)
      | some => exact (show 0 ≤ n - i by omega)
    | _ => cases o <;> exact le_rfl
  | _ => cases o <;> exact le_rfl

section Capacity

variable (h : Spacious σ) (hchanges : ChangesAwake σ) (hok : σ.Ok (program l)) (ho : Orderly l σ)
  (hbeat : Beat (program l) σ σ') (hl : Admitted l) (hcompany : Company l σ)
  (hbooked : GoesOn σ σ' → ∀ t, σ.on = some t → isOverbooking σ.shared (σ.pos t) = false)

include h hok ho hbeat

/-- There stays room for a rider that has been called. -/
theorem Spacious.called_kept (hawake : σ.Awake u) (hcalled : isCalled (σ.pos u) = true)
    (hcalled' : isCalled (σ'.pos u) = true) :
    σ'.shared.numRiders + 1 + rest (σ'.pos 2) ≤ maxRiders := by
  have hroom := h.called u hawake hcalled
  obtain ⟨hone, hle⟩ := Awake.forked hok hawake
  obtain ⟨o, r, q, hu⟩ := called_rider hcalled
  have hthree := (ho.cast.is_rider hone hle hu).1
  have htwo : 2 ≤ σ.last := le_trans (by decide) (le_trans hthree hle)
  cases ho.cast.post_beat hok hbeat with
  | starts hlast =>
    rw [hlast] at htwo
    exact absurd htwo (by decide)
  | goes o o' p p' hon hpos hpos' hadv =>
    have hsignalled : isSignalled (σ.pos 2) = true := by
      obtain ⟨hstart, hended⟩ := called_awake hcalled
      rcases ho.urgent.elevator ho.cast hok hon hawake hthree with ⟨r, hr⟩ | hover | hsignalled
      · exact absurd hr (hstart r)
      · exact absurd hover hended
      · exact hsignalled
    rw [hpos] at hsignalled hroom
    obtain ⟨hshared, hless⟩ := signalled_rest hadv (h.planned o p hpos) hsignalled
    rw [hpos', hshared]
    omega
  | stays hpos hshared =>
    rw [hpos]
    cases ho.cast.shared_beat hok hbeat with
    | same hshared => rwa [hshared]
    | cleared hclear =>
      rw [ho.cast.lone hclear] at htwo
      exact absurd htwo (by decide)
    | post _ _ _ _ hon => rwa [hshared hon]
    | rider t r' o₀ o₁ q₀ q₁ hon _ _ _ hplace hplace' hadv =>
      rcases rider_enters hadv with hless | ⟨heq, -, heq'⟩
      · omega
      · cases heq
        cases heq'
        have hsame := ho.served.alone u t hawake (Or.inl hon) (called_stop hcalled)
          (by rw [hplace]; exact Option.some_ne_none _)
        rw [hsame, hplace'] at hcalled'
        cases hcalled'

include hl hcompany

theorem Spacious.called_step (hawake : σ'.Awake u) (hcalled : isCalled (σ'.pos u) = true) :
    σ'.shared.numRiders + 1 + rest (σ'.pos 2) ≤ maxRiders := by
  have hkept : σ.Awake u → isCalled (σ.pos u) = true →
      σ'.shared.numRiders + 1 + rest (σ'.pos 2) ≤ maxRiders := fun hb hbefore =>
    h.called_kept hok ho hbeat hb hbefore hcalled
  obtain ⟨o', r, q', hpos'⟩ := called_rider hcalled
  rw [hpos'] at hcalled
  cases ho.cast.rider_wakes hok hl.valid hbeat hawake hpos' with
  | stays hb hpos => exact hkept hb (hpos ▸ hcalled)
  | goes o q hon hpos hwait hasks hadv =>
    obtain ⟨hone, hle⟩ := hok.running u hon
    have hr := hl.valid r (ho.cast.is_rider hone hle hpos).2.1
    exact hkept (Or.inl hon) (hpos ▸ rider_called hr hwait hasks hadv hcalled)
  | fresh ho' hq | ended ho' hq | released _ _ _ _ _ _ ho' hq =>
    subst ho' hq
    cases hcalled
  | called c a p hon hpos hpos₂ hcalls hr hu ho' hasks hshared _ =>
    subst ho'
    have hroom := h.room
    rw [hpos] at hroom
    rw [hpos₂, hshared]
    rcases asks_wait hasks with ⟨-, rfl⟩ | ⟨hc, rfl⟩ | ⟨-, rfl⟩
    · cases hcalled
    · rcases hcompany.tour.aimed c a p hpos with ⟨i, n, x, d, k, rfl, -⟩ | ⟨i, x, k, rfl, hc'⟩
      · change σ.shared.numRiders + (n - i) ≤ maxRiders at hroom
        change σ.shared.numRiders + 1 + (n - i - 1) ≤ maxRiders
        omega
      · have hlt := going_lt (d := r.dir) (hl.valid r hr).bounds.2.1
        have hge := requests_ge (i := σ.shared.currentFloor)
        rw [← hc', hc] at hge
        exact absurd (lt_of_le_of_lt hge hlt) (by decide)
    · cases hcalled

include hbooked hchanges

omit hbeat in
/-- The elevator plans and signals within the room. -/
theorem Spacious.post_step (hon : σ.on = some 2) (hpos : σ.pos 2 = (o, .post p))
    (hpos' : σ'.pos 2 = (o', .post p'))
    (hadv : Advance elevatorThread σ.shared (o, p) σ'.shared (o', p')) :
    Planned σ'.shared p' ∧ σ'.shared.numRiders + rest (o', .post p') ≤ maxRiders := by
  refine post_planned hadv (h.planned o p hpos) (hpos ▸ h.room) (fun htests => ?_) ?_
  · refine hchanges.tested ho hok hl hcompany hon ?_
    rw [hpos]
    rcases htests with ⟨d, a, n, x, heq⟩ | ⟨d, a, n, x, heq⟩ <;> cases heq <;> rfl
  · by_cases hsame : p' = p
    · by_contra hbooks
      exact overbooking_next hadv (eq_true_of_ne_false hbooks) hsame
    · have hgoes : GoesOn σ σ' := by
        refine ⟨2, (hok.running 2 hon).2, ?_⟩
        rw [hpos, hpos']
        exact fun heq => hsame (Place.post.inj heq)
      exact hpos ▸ hbooked hgoes 2 hon

theorem Spacious.planned_step (hpos' : σ'.pos 2 = (o', .post p')) : Planned σ'.shared p' := by
  cases ho.cast.post_beat hok hbeat with
  | starts _ hpos =>
    cases hpos.symm.trans hpos'
    trivial
  | goes o o'' p p'' hon hpos hpos'' hadv =>
    cases hpos''.symm.trans hpos'
    exact (h.post_step hchanges hok ho hl hcompany hbooked hon hpos hpos' hadv).1
  | stays hpos hshared =>
    have hplanned := h.planned o' p' (hpos.symm.trans hpos')
    cases ho.cast.shared_beat hok hbeat with
    | same hshared => exact hshared ▸ hplanned
    | cleared hclear =>
      have htwo := ho.cast.post_born (hpos.symm.trans hpos')
      rw [ho.cast.lone hclear] at htwo
      exact absurd htwo (by decide)
    | post _ _ _ _ hon => exact hshared hon ▸ hplanned
    | rider t r o₀ o₁ q₀ q₁ hon _ _ _ hplace _ hadv =>
      rcases rider_aboard hadv with ⟨hnum, hriders⟩ | hserved
      · exact hplanned.congr hnum hriders
      · have hvisits := ho.served.visits t (Or.inl hon) (hplace ▸ hserved)
        exact hplanned.visiting (o := o') (hpos.symm.trans hpos' ▸ hvisits)

theorem Spacious.room_step : σ'.shared.numRiders + rest (σ'.pos 2) ≤ maxRiders := by
  cases ho.cast.post_beat hok hbeat with
  | starts hlast hpos hshared =>
    have hroom := h.room
    rw [ho.cast.unborn 2 (by rw [hlast]; decide)] at hroom
    rw [hpos, hshared]
    exact hroom
  | goes o o' p p' hon hpos hpos' hadv =>
    rw [hpos']
    exact (h.post_step hchanges hok ho hl hcompany hbooked hon hpos hpos' hadv).2
  | stays hpos hshared =>
    have hroom := h.room
    rw [hpos]
    cases ho.cast.shared_beat hok hbeat with
    | same hshared => rwa [hshared]
    | cleared hclear hcleared =>
      rw [ho.cast.unborn 2 (by rw [ho.cast.lone hclear]; decide), hcleared]
      exact (show (0 : ℤ) + 0 ≤ maxRiders by decide)
    | post _ _ _ _ hon => rwa [hshared hon]
    | rider t r o o' q q' hon _ _ _ hplace _ hadv =>
      rcases rider_enters hadv with hle | ⟨heq, hone, -⟩
      · omega
      · cases heq
        have hcalled := h.called t (Or.inl hon) (by rw [hplace]; rfl)
        omega

theorem Spacious.beat : Spacious σ' where
  planned _ _ hpos' := h.planned_step hchanges hok ho hbeat hl hcompany hbooked hpos'
  room := h.room_step hchanges hok ho hbeat hl hcompany hbooked
  called _ hawake hcalled := h.called_step hok ho hbeat hl hcompany hawake hcalled

end Capacity

theorem Starts.spacious (h : Starts l w₀) : Spacious w₀.stage where
  planned o p hpos := by cases (h.pos 2).symm.trans hpos
  room := by
    have hshared : w₀.stage.shared = opened := congrArg Stage.shared h.1.stage
    rw [hshared, h.pos]
    exact (show (0 : ℤ) + 0 ≤ maxRiders by decide)
  called u _ hcalled := by
    rw [h.pos] at hcalled
    cases hcalled

theorem Starts.changesAwake (h : Starts l w₀) : ChangesAwake w₀.stage := by
  intro u _ o r q hpos
  cases (h.pos u).symm.trans hpos

/-- At every start of an iteration of its loop each rider aboard is counted in its class. -/
theorem classes_counted (hl : Admitted l) (h₀ : Starts l w₀)
    (hrun : Run (World.step g (program l)) EntersOwn w₀ w) (hiterates : Iterates w.stage) :
    w.shared.numRiders =
      w.shared.riders .president + w.shared.riders .director + w.shared.riders .employee := by
  have hall := h₀.observed id (I := fun w => ChangesAwake w.stage) hl hrun
    (fun _ _ _ => id) (fun _ _ => id) h₀.changesAwake (fun _ _ _ _ heq h => heq ▸ h)
    fun tick a b _ _ hok ho _ hbeat _ h => h.beat ho.cast hok hl.valid hbeat
  obtain ⟨hok, ho, hcompany, hchanges⟩ := hall
  exact (hchanges.tested ho hok hl hcompany hiterates.1 (by rw [hiterates.2]; rfl)).classes

/-- The capacity is kept in a run in which the elevator does not count a third director for
entering with three directors aboard. -/
theorem capacity_kept (hl : Admitted l) (h₀ : Starts l w₀)
    (hrun : Run (World.step g (program l)) (fun tick w => EntersOwn tick w ∧
      (AtStatement tick w → ∀ t ∈ w.stage.on, isOverbooking w.shared (w.stage.pos t) = false))
      w₀ w) : WithinCapacity w.stage := by
  have hall := h₀.observed id (I := fun w => ChangesAwake w.stage ∧ Spacious w.stage) hl
    hrun (fun _ _ _ => id) (fun _ _ hok => hok.1) ⟨h₀.changesAwake, h₀.spacious⟩
    (fun _ _ _ _ heq h => heq ▸ h) fun tick a b _ htick hok ho hcompany hbeat hat h =>
      ⟨h.1.beat ho.cast hok hl.valid hbeat,
        h.2.beat h.1 hok ho hbeat hl hcompany fun hgoes => htick.2 (hat hgoes)⟩
  obtain ⟨hok, ho, hcompany, hchanges, hspacious⟩ := hall
  refine ⟨?_, fun hiterates => ?_⟩
  · have hroom := hspacious.room
    have hrest := hspacious.rest_nonneg
    change w.shared.numRiders + rest (w.stage.pos 2) ≤ maxRiders at hroom
    change w.shared.numRiders ≤ maxRiders
    omega
  · exact (hchanges.tested ho hok hl hcompany hiterates.1 (by rw [hiterates.2]; rfl)).classes

/-- Three employees wait at a floor, and three directors arrive there when the elevator is there. -/
def crowding : List Arrival :=
  [.yield, .rider ⟨.employee, 2, 3⟩, .rider ⟨.employee, 2, 3⟩, .rider ⟨.employee, 2, 3⟩, .yield,
    .yield, .rider ⟨.director, 2, 5⟩, .rider ⟨.director, 2, 5⟩, .rider ⟨.director, 2, 5⟩]

theorem admitted_crowding : Admitted crowding := by
  refine ⟨fun r hr => ?_, by decide, by decide, by decide⟩
  simp only [crowding, List.mem_cons, reduceCtorEq, List.not_mem_nil, or_false, false_or,
    Arrival.rider.injEq, or_self] at hr
  rcases hr with rfl | rfl | rfl | rfl <;> exact ⟨by decide, by decide, by decide⟩

/-- The timer lets the directors register between the test of the employees' branch and the visit,
and they enter in the place of the employees. Their slots keep the start floor, and when the
elevator is there again it lets three riders in for them, with three riders aboard. -/
theorem capacity_exceeded :
    ¬ ∀ (l : List Arrival) (w₀ w : World Lift Place), Admitted l → Starts l w₀ →
      Run (World.step .statement (program l)) EntersOwn w₀ w → WithinCapacity w.stage := by
  intro hwithin
  obtain ⟨w₀, w, h₀, hrun, hgood⟩ := exists_start crowding .statement EntersOwn
    (List.replicate 242 .run ++ .expire :: List.replicate 927 .run)
    (fun w => w.shared.numRiders = 6) (by decide +kernel)
  have hsix : w.shared.numRiders = 6 := of_decide_eq_true hgood
  have hbound : w.shared.numRiders ≤ 5 := (hwithin crowding w₀ w admitted_crowding h₀ hrun).bound
  omega

/-- Without the timer the three employees are in the elevator. -/
theorem capacity_kept_three :
    ∃ w₀ w : World Lift Place, Starts crowding w₀ ∧ w.shared.numRiders = 3 ∧
      WithinCapacity w.stage := by
  obtain ⟨w₀, w, h₀, hrun, hgood⟩ := exists_start crowding .statement
    (fun tick w => EntersOwn tick w ∧
      (AtStatement tick w → ∀ t ∈ w.stage.on, isOverbooking w.shared (w.stage.pos t) = false))
    (List.replicate 334 .run) (fun w => w.shared.numRiders = 3) (by decide +kernel)
  exact ⟨w₀, w, h₀, of_decide_eq_true hgood, capacity_kept admitted_crowding h₀ hrun⟩

end UserThreads.Elevator
