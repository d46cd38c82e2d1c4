import UserThreads.ElevatorSlots

/-!
Who is in the elevator when a rider of a higher rank is registered. A director registers when
no employee is in the elevator, and the president when no director is either, or they wait for
`emptyElevator` first. If nobody of a lower rank enters after that, the branch of the highest
rank that is registered applies at every iteration of `ElevatorThread`.
-/
namespace UserThreads.Elevator

open Threads Runs Tallies MultilevelQueue

variable {l : List Arrival} {s s' : Lift} {place : Place} {x y : Option Op × Place}
  {σ σ' : Stage Lift Place} {t u v : Tid} {r : Rider} {o o' : Option Op} {q q' : Stand}
  {j k : Rank} {w₀ w : World Lift Place} {g : Grain}

/-- `ElevatorThread` starts an iteration of its loop. -/
def Iterates (σ : Stage Lift Place) : Prop := σ.on = some 2 ∧ σ.pos 2 = (none, .post .spaces)

/-- Nobody aboard shuts a registered rider out. -/
structure NobodyShutOut (g : Lift) : Prop where
  president : 0 < g.setOf .president → g.riders .director = 0 ∧ g.riders .employee = 0
  directors : 0 < g.setOf .director → g.riders .employee = 0

/-- A rider of the rank executes its increment of `directorRiders` or `employeeRiders`. -/
def isBoarding (k : Rank) : Option Op × Place → Bool
  | (none, .rider r .enterRank) => r.rank = k
  | _ => false

/-- No employee enters while a director or the president is registered, and no director while
the president is. -/
structure BoardsLast (σ : Stage Lift Place) (t : Tid) : Prop where
  employee : isBoarding .employee (σ.pos t) = true →
    σ.shared.setOf .president = 0 ∧ σ.shared.setOf .director = 0
  director : isBoarding .director (σ.pos t) = true → σ.shared.setOf .president = 0

instance (σ : Stage Lift Place) (t : Tid) : Decidable (BoardsLast σ t) :=
  decidable_of_iff (_ ∧ _) ⟨fun h => ⟨h.1, h.2⟩, fun h => ⟨h.1, h.2⟩⟩

/-- Nobody aboard keeps a rider of the rank from registering. -/
def Lift.Free (g : Lift) (k : Rank) : Prop := ∀ j : Rank, j.priority < k.priority → g.riders j ≤ 0

/-- The rank of a rider that has found the elevator free for it, or has been told so. -/
def registering : Option Op × Place → Option Rank
  | (none, .rider r .leaveEmpty) => some r.rank
  | (_, .rider r .storeStart) | (_, .rider r .storeEnd) | (_, .rider r .count) => some r.rank
  | _ => none

/-- The rider tells those that wait for an empty elevator. -/
def isBroadcasting : Option Op × Place → Bool
  | (_, .rider _ (.broadcast _)) => true
  | _ => false

/-- Riders register in an elevator that is free for them, and it stays so. -/
structure Reserved (σ : Stage Lift Place) : Prop where
  passed : ∀ u k, σ.Awake u → registering (σ.pos u) = some k → σ.shared.Free k
  vacant : ∀ u, σ.Awake u → isBroadcasting (σ.pos u) = true → σ.shared.Free .president
  registered : ∀ k, 0 < σ.shared.setOf k → σ.shared.Free k

theorem Lift.Free.mono (h : s.Free .president) (k : Rank) : s.Free k := by
  intro j hj
  refine h j (lt_of_lt_of_le hj ?_)
  cases k <;> decide

theorem free_employee : s.Free .employee := by
  intro j hj
  cases j <;> exact absurd hj (by decide)

theorem storeStart_riders (g : Lift) (k : Rank) (n : ℤ) :
    (g.storeStart k n).riders = g.riders ∧ (g.storeStart k n).setOf = g.setOf := by
  cases k <;> exact ⟨rfl, rfl⟩

theorem storeEnd_riders (g : Lift) (k : Rank) (n : ℤ) :
    (g.storeEnd k n).riders = g.riders ∧ (g.storeEnd k n).setOf = g.setOf := by
  cases k <;> exact ⟨rfl, rfl⟩

/-- The classes aboard and those registered grow where a rider enters and where it registers. -/
theorem rider_classes (h : Advance (fun g => rider g r) s (o, q) s' (o', q')) :
    (∀ j, s'.riders j ≤ s.riders j ∨ (o, q) = (none, .enterRank) ∧ r.rank = j) ∧
      ∀ k, s'.setOf k ≤ s.setOf k ∨
        (o, q) = (none, .count) ∧ r.rank = k ∧ s'.riders = s.riders := by
  cases h with
  | ret | call => exact ⟨fun _ => Or.inl le_rfl, fun _ => Or.inl le_rfl⟩
  | act _ _ _ hcode =>
    cases q with
    | broadcast i =>
      obtain ⟨rfl, rfl⟩ := broadcast_act hcode
      exact ⟨fun _ => Or.inl le_rfl, fun _ => Or.inl le_rfl⟩
    | sigElevator | awaitEmpty | await | sigRequest | awaitFloor | sigExit | exited | gone =>
      cases hcode
    | storeStart | clearStart =>
      cases hcode
      obtain ⟨hriders, hset⟩ := storeStart_riders s r.rank _
      exact ⟨fun _ => Or.inl (le_of_eq (congrFun hriders _)),
        fun _ => Or.inl (le_of_eq (congrFun hset _))⟩
    | storeEnd | clearEnd =>
      cases hcode
      obtain ⟨hriders, hset⟩ := storeEnd_riders s r.rank _
      exact ⟨fun _ => Or.inl (le_of_eq (congrFun hriders _)),
        fun _ => Or.inl (le_of_eq (congrFun hset _))⟩
    | enterRank =>
      cases hcode
      refine ⟨fun j => ?_, fun _ => Or.inl le_rfl⟩
      by_cases hj : r.rank = j
      · exact Or.inr ⟨rfl, hj⟩
      · exact Or.inl (le_of_eq (bump_of_ne (Ne.symm hj) 1))
    | exitRank =>
      cases hcode
      refine ⟨fun j => Or.inl ?_, fun _ => Or.inl le_rfl⟩
      by_cases hj : r.rank = j
      · subst hj
        exact (bump_self s.riders r.rank (-1)).trans_le (by omega)
      · exact le_of_eq (bump_of_ne (Ne.symm hj) (-1))
    | count =>
      cases hcode
      refine ⟨fun _ => Or.inl le_rfl, fun k => ?_⟩
      by_cases hk : r.rank = k
      · exact Or.inr ⟨rfl, hk, rfl⟩
      · exact Or.inl (le_of_eq (bump_of_ne (Ne.symm hk) 1))
    | uncount =>
      cases hcode
      refine ⟨fun _ => Or.inl le_rfl, fun k => Or.inl ?_⟩
      by_cases hk : r.rank = k
      · subst hk
        exact (bump_self s.setOf r.rank (-1)).trans_le (by omega)
      · exact le_of_eq (bump_of_ne (Ne.symm hk) (-1))
    | _ =>
      injection hcode with hs
      subst hs
      exact ⟨fun _ => Or.inl le_rfl, fun _ => Or.inl le_rfl⟩

theorem registering_registers (r : Rider) :
    registering (none, .rider r r.rank.registers) = some r.rank ∧
      isBroadcasting (none, .rider r r.rank.registers) = false := by
  obtain ⟨rank, f, f'⟩ := r
  cases rank <;> exact ⟨rfl, rfl⟩

/-- A rider goes to register when it has found the elevator free, and tells the others when it
has found it empty. -/
theorem rider_registers (hwait : ∀ c, o ≠ some (.tWait c none))
    (hasks : ∀ op, o = some op → Asks r op q)
    (h : Advance (fun g => rider g r) s (o, q) s' (o', q')) :
    (∀ k, registering (o', .rider r q') = some k →
      registering (o, .rider r q) = some k ∨ s' = s ∧ s.Free k ∨ k = .employee) ∧
    (isBroadcasting (o', .rider r q') = true →
      isBroadcasting (o, .rider r q) = true ∨ s' = s ∧ s.Free .president) := by
  cases h with
  | ret op =>
    cases hasks op rfl with
    | awaitEmpty | await | awaitFloor => exact absurd rfl (hwait _)
    | broadcast => exact ⟨fun _ h => (by cases h), fun _ => Or.inl rfl⟩
    | _ => exact ⟨fun _ h => (by cases h), fun h => (by cases h)⟩
  | call op _ _ hcode =>
    cases q with
    | broadcast i =>
      obtain rfl := broadcast_call hcode
      exact ⟨fun _ h => (by cases h), fun _ => Or.inl rfl⟩
    | sigElevator | awaitEmpty | await | sigRequest | awaitFloor | sigExit | exited =>
      cases hcode
      exact ⟨fun _ h => (by cases h), fun h => (by cases h)⟩
    | _ => cases hcode
  | act _ _ _ hcode =>
    cases q with
    | broadcast i =>
      obtain ⟨rfl, rfl⟩ := broadcast_act hcode
      exact ⟨fun _ h => (by cases h), fun h => (by cases h)⟩
    | sigElevator | awaitEmpty | await | sigRequest | awaitFloor | sigExit | exited | gone =>
      cases hcode
    | countWaiter =>
      injection hcode with hs hnext
      split at hnext <;> rename_i hk <;> subst hs hnext
      · refine ⟨fun k h => Or.inr (Or.inr ?_), fun h => (by cases h)⟩
        exact (Option.some.inj h).symm.trans hk
      · exact ⟨fun _ h => (by cases h), fun h => (by cases h)⟩
    | isEmpty =>
      injection hcode with hs hnext
      split at hnext <;> rename_i hfull <;> subst hs hnext
      · exact ⟨fun _ h => (by cases h), fun h => (by cases h)⟩
      · obtain ⟨hemployee, hdirector⟩ := not_or.mp hfull
        have hemployee : s.riders .employee = 0 := not_not.mp hemployee
        obtain ⟨hrank, hnot⟩ := registering_registers r
        refine ⟨fun k h => Or.inr (Or.inl ⟨rfl, ?_⟩), fun h => absurd h (by simp [hnot])⟩
        obtain rfl : r.rank = k := Option.some.inj (hrank.symm.trans h)
        intro j hj
        cases j with
        | employee => exact le_of_eq hemployee
        | president => cases hk : r.rank <;> rw [hk] at hj <;> exact absurd hj (by decide)
        | director =>
          have hk : r.rank = .president := by
            cases hk : r.rank <;> rw [hk] at hj <;> first | rfl | exact absurd hj (by decide)
          exact le_of_eq (not_not.mp fun hne => hdirector ⟨hk, hne⟩)
    | leaveEmpty =>
      cases hcode
      obtain ⟨hrank, hnot⟩ := registering_registers r
      exact ⟨fun k h => Or.inl (hrank.symm.trans h), fun h => absurd h (by simp [hnot])⟩
    | storeStart =>
      cases hcode
      exact ⟨fun _ => Or.inl, fun h => (by cases h)⟩
    | storeEnd =>
      injection hcode with hs hnext
      split at hnext <;> subst hnext
      · exact ⟨fun _ h => (by cases h), fun h => (by cases h)⟩
      · exact ⟨fun _ => Or.inl, fun h => (by cases h)⟩
    | count =>
      injection hcode with hs hnext
      split at hnext <;> subst hnext
      · exact ⟨fun _ => Or.inl, fun h => (by cases h)⟩
      · exact ⟨fun _ h => (by cases h), fun h => (by cases h)⟩
    | isVacant =>
      injection hcode with hs hnext
      split at hnext <;> rename_i hvacant <;> subst hs hnext
      · refine ⟨fun _ h => (by cases h), fun _ => Or.inr ⟨rfl, fun j hj => ?_⟩⟩
        cases j with
        | president => exact absurd hj (by decide)
        | director => exact le_of_eq hvacant.2
        | employee => exact le_of_eq hvacant.1
      · exact ⟨fun _ h => (by cases h), fun h => (by cases h)⟩
    | _ =>
      injection hcode with hs hnext
      try (repeat' split at hnext)
      all_goals subst hs hnext
      all_goals exact ⟨fun _ h => (by cases h), fun h => (by cases h)⟩

/-- The elevator changes none of the classes. -/
theorem post_classes {p : Post} {z : Option Op × Post} (h : Advance elevatorThread s (o, p) s' z) :
    s'.riders = s.riders ∧ s'.setOf = s.setOf := by
  rcases post_counts h .inside with - | ⟨-, hreset⟩
  · exact ⟨funext fun j => (post_counts h (.aboard j)).elim id fun h => by rw [h.2],
      funext fun k => (post_counts h (.registered k)).elim id fun h => by rw [h.2]⟩
  · rw [hreset]
    exact ⟨rfl, rfl⟩

theorem registering_rider (h : registering x = some k) :
    ∃ o r q, x = (o, .rider r q) ∧ r.rank = k := by
  obtain ⟨o, place⟩ := x
  cases place with
  | rider r q =>
    refine ⟨o, r, q, rfl, ?_⟩
    cases q <;> cases o <;> cases h <;> rfl
  | _ => cases o <;> cases h

theorem broadcasting_rider (h : isBroadcasting x = true) :
    ∃ o r i, x = (o, .rider r (.broadcast i)) := by
  obtain ⟨o, place⟩ := x
  cases place with
  | rider r q => cases q <;> first | exact ⟨o, r, _, rfl⟩ | cases h
  | _ => cases h

theorem enterRank_next (h : Advance (fun g => rider g r) s (none, .enterRank) s' (o', q')) :
    q' = .uncountWaiter := by
  cases h <;> rename_i hcode <;> cases hcode
  rfl

/-- An elevator that is free for a rank stays so if nobody of a lower rank enters. -/
theorem Lift.Free.kept (h : σ.shared.Free k) (hc : Cast l σ) (hok : σ.Ok (program l))
    (hbeat : Beat (program l) σ σ')
    (hnone : GoesOn σ σ' → ∀ t r, σ.on = some t → σ.pos t = (none, .rider r .enterRank) →
      ¬ r.rank.priority < k.priority) : σ'.shared.Free k := by
  intro j hj
  cases hc.shared_beat hok hbeat with
  | same hshared => exact hshared ▸ h j hj
  | cleared _ hshared => exact le_of_eq (by rw [hshared]; rfl)
  | post _ _ _ _ _ _ _ hadv => exact (congrFun (post_classes hadv).1 j).trans_le (h j hj)
  | rider t r o o' q q' hon _ hle _ hpos hpos' hadv =>
    rcases (rider_classes hadv).1 j with hless | ⟨heq, hrank⟩
    · exact le_trans hless (h j hj)
    · cases heq
      obtain rfl := enterRank_next hadv
      have hgoes : GoesOn σ σ' := ⟨t, hle, by rw [hpos, hpos']; simp⟩
      exact absurd (hrank ▸ hj) (hnone hgoes t r hon hpos)

theorem BoardsLast.lower (h : BoardsLast σ t) (hpos : σ.pos t = (none, .rider r .enterRank))
    (hlt : r.rank.priority < k.priority) : σ.shared.setOf k = 0 := by
  have hboards : isBoarding r.rank (σ.pos t) = true := by
    rw [hpos]
    exact decide_eq_true rfl
  cases hr : r.rank <;> rw [hr] at hboards hlt
  · cases k <;> exact absurd hlt (by decide)
  · cases k with
    | president => exact h.director hboards
    | _ => exact absurd hlt (by decide)
  · cases k with
    | president => exact (h.employee hboards).1
    | director => exact (h.employee hboards).2
    | employee => exact absurd hlt (by decide)

/-- The elevator signals nobody that waits for it to be empty. -/
theorem Company.calls_rider (h : Company l σ) {c : CondId} {a : AnyPtr} {p : Post}
    (hpos : σ.pos 2 = (some (.tSig c a none), .post p)) (hcalls : Calls (.tSig c a none) p) :
    c ≠ emptyElevator := by
  have hinner : Inner σ.shared := by
    have hfits := h.tour.fits _ p hpos
    cases hcalls <;> exact hfits
  rintro rfl
  rcases h.tour.aimed _ a p hpos with ⟨i, n, x, d, k, -, hc⟩ | ⟨i, x, k, -, hc⟩
  · have hlt := going_lt (d := d) hinner.2.1
    rw [← hc] at hlt
    exact absurd hlt (by decide)
  · have hge := requests_ge (i := σ.shared.currentFloor)
    rw [← hc] at hge
    exact absurd hge (by decide)

section Step

variable (h : Reserved σ) (hbeat : Beat (program l) σ σ') (hok : σ.Ok (program l))
  (ho : Orderly l σ) (hl : AllValid l) (hcompany : Company l σ)
  (hboards : GoesOn σ σ' → ∀ t, σ.on = some t → BoardsLast σ t)

/-- Nobody of a lower rank enters while a rider registers. -/
theorem Orderly.registers_first (ho : Orderly l σ) (hok : σ.Ok (program l)) (hawake : σ.Awake u)
    (hk : registering (σ.pos u) = some k) (hon : σ.on = some t)
    (hpos : σ.pos t = (none, .rider r .enterRank)) : ¬ r.rank.priority < k.priority := by
  intro hlt
  obtain ⟨o', r', q', hu, rfl⟩ := registering_rider hk
  rcases hawake with hrun | ⟨p, hp⟩
  · cases hon.symm.trans hrun
    rw [hpos] at hk
    cases hk
  · obtain ⟨hone, hle⟩ := hok.known _ u hp
    have hprio : p = r'.rank.priority :=
      (hok.level p u hp).symm.trans (ho.cast.is_rider hone hle hu).2.2
    obtain ⟨hone', hle'⟩ := hok.running t hon
    have hprio' := (ho.cast.is_rider hone' hle' hpos).2.2
    cases ho.urgent t u p hon hp (by rw [hprio, hprio']; exact hlt) with
    | fresh _ hy =>
      rw [hy] at hk
      cases hk
    | ended hy => rcases hy with hy | ⟨_, hy⟩ <;> rw [hy] at hk <;> cases hk
    | signalled hx | released _ hx =>
      rw [hpos] at hx
      cases hx

/-- Nobody enters while a rider tells the others that the elevator is empty. -/
theorem Orderly.broadcasts_alone (ho : Orderly l σ) (hawake : σ.Awake u)
    (hu : isBroadcasting (σ.pos u) = true) (hon : σ.on = some t) :
    σ.pos t ≠ (none, .rider r .enterRank) := by
  intro hpos
  obtain ⟨o', r', i, hplace⟩ := broadcasting_rider hu
  have heq := ho.served.alone u t hawake (Or.inl hon) (by rw [hplace]; cases o' <;> simp [stop])
    (by rw [hpos]; exact Option.some_ne_none _)
  rw [heq, hpos] at hu
  cases hu

include h hok ho hbeat hl

include hcompany in
theorem Reserved.passed_step (hawake : σ'.Awake u) (hk : registering (σ'.pos u) = some k) :
    σ'.shared.Free k := by
  have hkept : σ.Awake u → registering (σ.pos u) = some k → σ'.shared.Free k := fun hb hk =>
    (h.passed u k hb hk).kept ho.cast hok hbeat fun _ t r hon hpos =>
      ho.registers_first hok hb hk hon hpos
  obtain ⟨o', r, q', hpos', -⟩ := registering_rider hk
  rw [hpos'] at hk
  cases ho.cast.rider_wakes hok hl hbeat hawake hpos' with
  | stays hb hpos => exact hkept hb (hpos ▸ hk)
  | goes o q hon hpos hwait hasks hadv =>
    rcases (rider_registers hwait hasks hadv).1 k hk with hold | ⟨hsame, hfree⟩ | rfl
    · exact hkept (Or.inl hon) (hpos ▸ hold)
    · exact hsame ▸ hfree
    · exact free_employee
  | fresh ho' hq | ended ho' hq =>
    subst ho' hq
    cases hk
  | called c a p hon hpos _ hcalls _ _ ho' hasks hshared _ =>
    subst ho'
    rcases asks_wait hasks with ⟨hempty, -⟩ | ⟨-, rfl⟩ | ⟨-, rfl⟩
    · exact absurd hempty (hcompany.calls_rider hpos hcalls)
    · cases hk
    · cases hk
  | released v a r' i hon hpos _ _ hshared =>
    rw [hshared]
    exact (h.vacant v (Or.inl hon) (by rw [hpos]; rfl)).mono k

theorem Reserved.vacant_step (hawake : σ'.Awake u) (hu : isBroadcasting (σ'.pos u) = true) :
    σ'.shared.Free .president := by
  have hkept : σ.Awake u → isBroadcasting (σ.pos u) = true → σ'.shared.Free .president :=
    fun hb hu => (h.vacant u hb hu).kept ho.cast hok hbeat fun _ t r hon hpos =>
      absurd hpos (ho.broadcasts_alone hb hu hon)
  obtain ⟨o', r, i, hpos'⟩ := broadcasting_rider hu
  rw [hpos'] at hu
  cases ho.cast.rider_wakes hok hl hbeat hawake hpos' with
  | stays hb hpos => exact hkept hb (hpos ▸ hu)
  | goes o q hon hpos hwait hasks hadv =>
    rcases (rider_registers hwait hasks hadv).2 hu with hold | ⟨hsame, hfree⟩
    · exact hkept (Or.inl hon) (hpos ▸ hold)
    · exact hsame ▸ hfree
  | fresh _ hq | ended _ hq | released _ _ _ _ _ _ _ hq => cases hq
  | called c a p _ _ _ _ _ _ _ hasks =>
    rcases asks_wait hasks with ⟨-, hq⟩ | ⟨-, hq⟩ | ⟨-, hq⟩ <;> cases hq

omit hl
include hboards

theorem Reserved.registered_step (hk : 0 < σ'.shared.setOf k) : σ'.shared.Free k := by
  have hc := ho.cast
  have hkept : 0 < σ.shared.setOf k → σ'.shared.Free k := fun hpos =>
    (h.registered k hpos).kept hc hok hbeat fun hgoes t r hon hplace hlt =>
      absurd ((hboards hgoes t hon).lower hplace hlt) (ne_of_gt hpos)
  cases hc.shared_beat hok hbeat with
  | same hshared => exact hkept (hshared ▸ hk)
  | cleared _ hshared =>
    rw [hshared] at hk
    exact absurd hk (lt_irrefl _)
  | post _ _ _ _ _ _ _ hadv => exact hkept ((congrFun (post_classes hadv).2 k) ▸ hk)
  | rider t r o o' q q' hon _ _ _ hpos _ hadv =>
    rcases (rider_classes hadv).2 k with hle | ⟨heq, hrank, hriders⟩
    · exact hkept (lt_of_lt_of_le hk hle)
    · cases heq
      intro j hj
      rw [hriders]
      exact h.passed t k (Or.inl hon) (by rw [hpos, ← hrank]; rfl) j hj

end Step

theorem Starts.reserved (h : Starts l w₀) : Reserved w₀.stage where
  passed u k _ hk := by
    rw [h.pos] at hk
    cases hk
  vacant u _ hu := by
    rw [h.pos] at hu
    cases hu
  registered k hk := by
    have hshared : w₀.stage.shared = opened := congrArg Stage.shared h.1.stage
    rw [hshared] at hk
    exact absurd hk (lt_irrefl _)

/-- Nobody aboard shuts a registered rider out in a run in which riders of lower ranks do not
enter after it has registered. -/
theorem nobody_shut_out (hl : Admitted l) (h₀ : Starts l w₀)
    (hrun : Run (World.step g (program l)) (fun tick w => EntersOwn tick w ∧
      (AtStatement tick w → ∀ t ∈ w.stage.on, BoardsLast w.stage t)) w₀ w) :
    NobodyShutOut w.shared := by
  have hall := h₀.observed id (I := fun w => Reserved w.stage) hl hrun
    (fun _ _ _ => id) (fun _ _ hok => hok.1) h₀.reserved (fun _ _ _ _ heq h => heq ▸ h)
    fun tick a b _ htick hok ho hcompany hbeat hat h =>
      ⟨fun u k hawake hk => h.passed_step hbeat hok ho hl.valid hcompany hawake hk,
        fun u hawake hu => h.vacant_step hbeat hok ho hl.valid hawake hu,
        fun k hk => h.registered_step hbeat hok ho (fun hgoes => htick.2 (hat hgoes)) hk⟩
  obtain ⟨-, -, hcompany, hreserved⟩ := hall
  have hnonneg : ∀ j, 0 ≤ w.shared.riders j := fun j =>
    (tally_nonneg (Counter.weight_nonneg (.aboard j))).trans_eq
      (hcompany.tallied.counted (.aboard j)).symm
  have hfree : ∀ k, 0 < w.shared.setOf k → w.shared.Free k := hreserved.registered
  exact ⟨fun hp => ⟨le_antisymm (hfree _ hp .director (by decide)) (hnonneg _),
      le_antisymm (hfree _ hp .employee (by decide)) (hnonneg _)⟩,
    fun hd => le_antisymm (hfree _ hd .employee (by decide)) (hnonneg _)⟩

/-- An employee that waits at a floor, and a director that arrives when the elevator is there. -/
def meeting : List Arrival :=
  [.yield, .rider ⟨.employee, 2, 4⟩, .yield, .yield, .yield, .yield, .rider ⟨.director, 1, 5⟩]

theorem admitted_meeting : Admitted meeting := by
  refine ⟨fun r hr => ?_, by decide, by decide, by decide⟩
  simp only [meeting, List.mem_cons, reduceCtorEq, List.not_mem_nil, or_false, false_or,
    Arrival.rider.injEq] at hr
  rcases hr with rfl | rfl <;> exact ⟨by decide, by decide, by decide⟩

/-- The timer lets the director register between the test of the employees' branch and the visit,
and the employee enters. -/
theorem rider_shut_out :
    ¬ ∀ (l : List Arrival) (w₀ w : World Lift Place), Admitted l → Starts l w₀ →
      Run (World.step .statement (program l)) EntersOwn w₀ w → Iterates w.stage →
      NobodyShutOut w.shared := by
  intro hnone
  obtain ⟨w₀, w, h₀, hrun, hgood⟩ := exists_start meeting .statement EntersOwn
    (List.replicate 206 .run ++ .expire :: List.replicate 134 .run)
    (fun w => w.sys.on = some 2 ∧ (w.sys.due 2, w.threads 2) = (none, .post .spaces) ∧
      w.shared.setOf .director = 1 ∧ w.shared.riders .employee = 1) (by decide +kernel)
  obtain ⟨hon, hpos, hdirector, hemployee⟩ := of_decide_eq_true hgood
  have hzero := (hnone meeting w₀ w admitted_meeting h₀ hrun ⟨hon, hpos⟩).directors (by omega)
  omega

/-- Two directors are registered and one is in the elevator. -/
theorem nobody_shut_out_two :
    ∃ w₀ w : World Lift Place, Starts changing w₀ ∧ w.shared.setOf .director = 2 ∧
      w.shared.riders .director = 1 ∧ NobodyShutOut w.shared := by
  obtain ⟨w₀, w, h₀, hrun, hgood⟩ := exists_start changing .statement
    (fun tick w => EntersOwn tick w ∧
      (AtStatement tick w → ∀ t ∈ w.stage.on, BoardsLast w.stage t)) (List.replicate 200 .run)
    (fun w => w.shared.setOf .director = 2 ∧ w.shared.riders .director = 1) (by decide +kernel)
  obtain ⟨htwo, hone⟩ := of_decide_eq_true hgood
  exact ⟨w₀, w, h₀, htwo, hone, nobody_shut_out admitted_changing h₀ hrun⟩

end UserThreads.Elevator
