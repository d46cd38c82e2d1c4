import UserThreads.ElevatorRoles

/-!
Riders run before the elevator. Their priorities are higher than that of the elevator and of
the first thread, so these two run only when no rider can, with the exceptions in `Excused`:
a rider that has just been forked, and the rider that the elevator has just signalled. What
the elevator reads between two visits therefore does not change under it, except by the calls
of riders that arrive.
-/
namespace UserThreads.Elevator

open Threads Runs Tallies MultilevelQueue

variable {l : List Arrival} {s s' : Lift} {place : Place} {x y : Option Op × Place}
  {σ σ' : Stage Lift Place} {t u : Tid} {c : CondId} {p : ℤ} {r : Rider} {d e : Dir} {f i : ℤ}

section Conditions

/-! No two conditions of the elevator have one number. -/

theorem going_lt (hi : i ≤ 10) : going d i < 22 := by
  cases d with
  | up => exact (show 2 * i.toNat < 22 by omega)
  | down => exact (show 2 * i.toNat + 1 < 22 by omega)

theorem going_inj (hf : 0 ≤ f) (hi : 0 ≤ i) (h : going d f = going e i) : d = e ∧ f = i := by
  cases d with
  | up =>
    cases e with
    | up =>
      have h : 2 * f.toNat = 2 * i.toNat := h
      exact ⟨rfl, by omega⟩
    | down =>
      have h : 2 * f.toNat = 2 * i.toNat + 1 := h
      omega
  | down =>
    cases e with
    | up =>
      have h : 2 * f.toNat + 1 = 2 * i.toNat := h
      omega
    | down =>
      have h : 2 * f.toNat + 1 = 2 * i.toNat + 1 := h
      exact ⟨rfl, by omega⟩

theorem requests_inj (hf : 0 ≤ f) (hi : 0 ≤ i) (h : requests f = requests i) : f = i := by
  have h : 24 + f.toNat = 24 + i.toNat := h
  omega

theorem requests_ge : 24 ≤ requests i := Nat.le_add_right ..

end Conditions

section Waiting

/-- Where a rider waits. -/
theorem asks_wait {q : Stand} (h : Asks r (.tWait c none) q) :
    c = emptyElevator ∧ q = .leaveEmpty ∨ c = going r.dir r.floorS ∧ q = .uncountFloor ∨
      c = requests r.floorE ∧ q = .leaveFloor := by
  cases h with
  | awaitEmpty => exact Or.inl ⟨rfl, rfl⟩
  | await => exact Or.inr (Or.inl ⟨rfl, rfl⟩)
  | awaitFloor => exact Or.inr (Or.inr ⟨rfl, rfl⟩)

/-- No rider waits for itself to be called to the elevator's place. -/
theorem Rider.Valid.not_elvWait (h : r.Valid) {q : Stand} : ¬ Asks r (.tWait elvWait none) q := by
  intro hasks
  obtain ⟨hs, hs', he, he'⟩ := h.bounds
  rcases asks_wait hasks with ⟨hc, -⟩ | ⟨hc, -⟩ | ⟨hc, -⟩
  · cases hc
  · have hlt := going_lt (d := r.dir) hs'
    rw [← hc] at hlt
    exact absurd hlt (by decide)
  · have hge := requests_ge (i := r.floorE)
    rw [← hc] at hge
    exact absurd hge (by decide)

theorem Rider.Valid.waits_empty (h : r.Valid) {q : Stand}
    (hasks : Asks r (.tWait emptyElevator none) q) : q = .leaveEmpty := by
  obtain ⟨hs, hs', he, he'⟩ := h.bounds
  rcases asks_wait hasks with ⟨-, hq⟩ | ⟨hc, -⟩ | ⟨hc, -⟩
  · exact hq
  · have hlt := going_lt (d := r.dir) hs'
    rw [← hc] at hlt
    exact absurd hlt (by decide)
  · have hge := requests_ge (i := r.floorE)
    rw [← hc] at hge
    exact absurd hge (by decide)

/-- The elevator and the riders are the ones that wait. -/
theorem wait_cases {next : Place} (h : (program l).code s place = .call (.tWait c none) next) :
    (∃ q, next = .post q ∧ Calls (.tWait c none) q) ∨
      ∃ r q, next = .rider r q ∧ Asks r (.tWait c none) q := by
  rcases code_cases l s place with hopen | ⟨p, rfl, hbody⟩ | ⟨r, p, rfl, hbody⟩
  · rw [h] at hopen
    cases hopen
  · obtain ⟨q, hcall, rfl⟩ := inBody_call (hbody.symm.trans h)
    exact Or.inl ⟨q, rfl, calls_of_code hcall⟩
  · obtain ⟨q, hcall, rfl⟩ := inBody_call (hbody.symm.trans h)
    exact Or.inr ⟨r, q, rfl, asks_of_code hcall⟩

/-- Who waits at a condition: the elevator at `elv_wait`, and riders at the others. -/
theorem Cast.waiting (h : Cast l σ) (hok : σ.Ok (program l)) (ht : t ∈ σ.queues (.cond c p)) :
    (t = 2 ∧ 2 ≤ σ.last ∧ ∃ q, σ.pos 2 = (none, .post q) ∧ Calls (.tWait c none) q) ∨
      3 ≤ t ∧ t ≤ σ.last ∧ ∃ r q, σ.pos t = (none, .rider r q) ∧ .rider r ∈ l ∧
        σ.priority t = r.rank.priority ∧ Asks r (.tWait c none) q := by
  obtain ⟨hnone, shared, before, hcode⟩ := hok.waits c p t ht
  obtain ⟨hone, hle⟩ := hok.known _ t ht
  have hwaits := wait_cases hcode
  rcases tid_cases hone with rfl | rfl | hthree
  · have hopener := h.pos_opener
    generalize σ.pos 1 = x at *
    rcases hwaits with ⟨q, hq, -⟩ | ⟨r, q, hq, -⟩ <;> rcases hopener with hearly | hlate
    · cases hearly <;> cases hq
    · cases hlate <;> cases hq
    · cases hearly <;> cases hq
    · cases hlate <;> cases hq
  · obtain ⟨o, q, hq⟩ := h.pos_post hle
    rw [hq] at hnone hwaits
    obtain rfl : o = none := hnone
    rcases hwaits with ⟨q', heq, hcalls⟩ | ⟨r, q', heq, -⟩
    · cases heq
      exact Or.inl ⟨rfl, hle, q, hq, hcalls⟩
    · cases heq
  · obtain ⟨o, r, q, hq, hr, hprio⟩ := h.pos_rider hthree hle
    rw [hq] at hnone hwaits
    obtain rfl : o = none := hnone
    rcases hwaits with ⟨q', heq, -⟩ | ⟨r', q', heq, hasks⟩
    · cases heq
    · cases heq
      exact Or.inr ⟨hthree, hle, r, q, hq, hr, hprio, hasks⟩

/-- The elevator and the riders are the ones that signal. -/
theorem Cast.signals (h : Cast l σ) (hok : σ.Ok (program l)) {a : AnyPtr} (hon : σ.on = some t)
    (hpos : σ.pos t = (some (.tSig c a none), place)) :
    (t = 2 ∧ ∃ q, place = .post q ∧ Calls (.tSig c a none) q) ∨
      3 ≤ t ∧ ∃ r q, place = .rider r q ∧ Asks r (.tSig c a none) q := by
  rcases on_cases hok hon with rfl | ⟨rfl, htwo⟩ | ⟨hthree, hle⟩
  · have hopener := h.pos_opener
    rw [hpos] at hopener
    rcases hopener with hearly | hlate
    · cases hearly
    · cases hlate
  · obtain ⟨o, q, hq⟩ := h.pos_post htwo
    cases hpos.symm.trans hq
    exact Or.inl ⟨rfl, q, rfl, pending_post hok hq⟩
  · obtain ⟨o, r, q, hq, -⟩ := h.pos_rider hthree hle
    cases hpos.symm.trans hq
    exact Or.inr ⟨hthree, r, q, rfl, pending_rider hok hq⟩

/-- Whom a signal wakes: a rider the elevator, the elevator a rider, or a rider that lets the
waiters for an empty elevator go one of these. -/
inductive Woken (l : List Arrival) (σ : Stage Lift Place) (t u : Tid) (c : CondId) (a : AnyPtr)
    (place : Place) : Prop
  | elevator (r : Rider) (q : Stand) (hu : u = 2) (ht : 3 ≤ t) (hc : c = elvWait)
      (hplace : place = .rider r q) (hasks : Asks r (.tSig c a none) q)
  | rider (q : Post) (r : Rider) (w : Stand) (ht : t = 2) (hu : 3 ≤ u) (hplace : place = .post q)
      (hcalls : Calls (.tSig c a none) q) (hpos : σ.pos u = (none, .rider r w)) (hr : .rider r ∈ l)
      (hasks : Asks r (.tWait c none) w)
  | released (r : Rider) (i : ℕ) (r' : Rider) (ht : 3 ≤ t) (hu : 3 ≤ u) (hc : c = emptyElevator)
      (hplace : place = .rider r (.broadcast (i + 1))) (hi : i < 5)
      (hpos : σ.pos u = (none, .rider r' .leaveEmpty)) (hr : .rider r' ∈ l)

theorem Cast.woken (h : Cast l σ) (hok : σ.Ok (program l)) (hl : AllValid l) {a : AnyPtr}
    (hon : σ.on = some t) (hpos : σ.pos t = (some (.tSig c a none), place))
    (hu : u ∈ σ.queues (.cond c p)) : Woken l σ t u c a place := by
  rcases h.waiting hok hu with ⟨rfl, -, q, hq, hcalls⟩ | ⟨hthree, -, r, q, hq, hr, -, hwait⟩
  · have hc : c = elvWait := by cases hcalls <;> rfl
    rcases h.signals hok hon hpos with ⟨rfl, -⟩ | ⟨ht, r, q', hplace, hasks⟩
    · exact absurd hu (hok.apart 2 hon _)
    · exact .elevator r q' rfl ht hc hplace hasks
  · rcases h.signals hok hon hpos with ⟨rfl, q', hplace, hcalls⟩ | ⟨ht, r', q', hplace, hasks⟩
    · exact .rider q' r q rfl hthree hplace hcalls hq hr hwait
    · have hvalid := hl r hr
      cases hasks with
      | sigElevator | sigRequest | sigExit => exact absurd hwait hvalid.not_elvWait
      | broadcast i hi =>
        obtain rfl := hvalid.waits_empty hwait
        exact .released r' i r ht hthree rfl hplace hi hq hr

theorem Awake.forked (hok : σ.Ok (program l)) (h : σ.Awake u) : 1 ≤ u ∧ u ≤ σ.last := by
  rcases h with hrun | ⟨p, hp⟩
  · exact hok.running u hrun
  · exact hok.known _ u hp

/-- Who can run after a beat, apart from the first two threads, is a rider. -/
theorem Cast.awake_rider (h : Cast l σ) (hok : σ.Ok (program l)) (hl : AllValid l)
    (hbeat : Beat (program l) σ σ') (hthree : 3 ≤ u) (hawake : σ'.Awake u) :
    ∃ o r q, σ'.pos u = (o, .rider r q) := by
  have hle : u ≤ σ'.last := by
    cases hbeat.wakes hok hawake with
    | old hbefore => exact le_trans (Awake.forked hok hbefore).2 hbeat.last_le
    | new ht hlast => exact le_of_eq (ht.trans hlast.symm)
    | finished hover => exact le_trans (hok.ended u hover).2 hbeat.last_le
    | woken v c a place p _ _ hmem => exact le_trans (hok.known _ u hmem).2 hbeat.last_le
  obtain ⟨o, r, q, hq, -⟩ := (h.beat hok hl hbeat).pos_rider hthree hle
  exact ⟨o, r, q, hq⟩

/-- Why a rider can run after a beat. -/
inductive RiderWakes (l : List Arrival) (σ σ' : Stage Lift Place) (u : Tid) (r : Rider)
    (o' : Option Op) (q' : Stand) : Prop
  | stays (hawake : σ.Awake u) (hpos : σ.pos u = (o', .rider r q'))
  | goes (o : Option Op) (q : Stand) (hon : σ.on = some u) (hpos : σ.pos u = (o, .rider r q))
      (hwait : ∀ c, o ≠ some (.tWait c none)) (hasks : ∀ op, o = some op → Asks r op q)
      (hadv : Advance (fun g => Elevator.rider g r) σ.shared (o, q) σ'.shared (o', q'))
  | fresh (ho : o' = none) (hq : q' = .start)
  | ended (ho : o' = none) (hq : q' = .gone)
  | called (c : CondId) (a : AnyPtr) (p : Post) (hon : σ.on = some 2)
      (hpos : σ.pos 2 = (some (.tSig c a none), .post p)) (hpos' : σ'.pos 2 = (none, .post p))
      (hcalls : Calls (.tSig c a none) p) (hr : .rider r ∈ l)
      (hu : σ.pos u = (none, .rider r q')) (ho : o' = none) (hasks : Asks r (.tWait c none) q')
      (hshared : σ'.shared = σ.shared) (hrest : ∀ v, σ'.Awake v → v = u ∨ σ.Awake v)
  | released (v : Tid) (a : AnyPtr) (r' : Rider) (i : ℕ) (hon : σ.on = some v)
      (hpos : σ.pos v = (some (.tSig emptyElevator a none), .rider r' (.broadcast (i + 1))))
      (ho : o' = none) (hq : q' = .leaveEmpty) (hshared : σ'.shared = σ.shared)

theorem Cast.rider_wakes (h : Cast l σ) (hok : σ.Ok (program l)) (hl : AllValid l)
    (hbeat : Beat (program l) σ σ') {o' : Option Op} {q' : Stand} (hawake : σ'.Awake u)
    (hpos' : σ'.pos u = (o', .rider r q')) : RiderWakes l σ σ' u r o' q' := by
  cases hbeat.wakes hok hawake with
  | old hbefore hwait =>
    obtain ⟨hone, hle⟩ := Awake.forked hok hbefore
    rcases h.rider_before hok hl hbeat hone (le_trans hle hbeat.last_le) hpos' with
      ⟨-, o, q, hpos⟩ | ⟨rfl, rfl⟩
    · by_cases hw : ∃ c, o = some (.tWait c none)
      · obtain ⟨c, rfl⟩ := hw
        exact .stays hbefore ((hwait c (congrArg Prod.fst hpos)).symm.trans hpos')
      · rcases h.rider_beat hok hbeat hone hle hpos with hsame | ⟨o'', q'', hon, hpos'', hadv⟩
        · exact .stays hbefore (hsame.symm.trans hpos')
        · cases hpos''.symm.trans hpos'
          exact .goes o q hon hpos (fun c hc => hw ⟨c, hc⟩)
            (fun op hop => pending_rider hok (hpos.trans (by rw [hop]))) hadv
    · exact .fresh rfl rfl
  | new ht hlast =>
    rcases h.born hok hl hbeat hlast with ⟨hlone, hborn⟩ | ⟨-, r', -, hborn⟩
    · rw [ht, hlone] at hpos'
      cases hborn.symm.trans hpos'
    · rw [ht] at hpos'
      cases hborn.symm.trans hpos'
      exact .fresh rfl rfl
  | finished hover hsame =>
    rcases h.finished u hover with hy | ⟨_, hy⟩
    · cases (hsame.trans hy).symm.trans hpos'
    · cases (hsame.trans hy).symm.trans hpos'
      exact .ended rfl rfl
  | woken v c a place p hon hpos hmem hupdate hshared hrest =>
    have hne : u ≠ v := by
      rintro rfl
      exact hok.apart u hon _ hmem
    have hu : σ.pos u = (o', .rider r q') := by
      rwa [hupdate, Function.update_of_ne hne] at hpos'
    cases h.woken hok hl hon hpos hmem with
    | elevator r' q htwo =>
      subst htwo
      obtain ⟨o, p', hp⟩ := h.pos_post (hok.known _ 2 hmem).2
      cases hp.symm.trans hu
    | rider p' r' w ht hthree hplace hcalls hpos'' hr hasks =>
      subst ht hplace
      cases hu.symm.trans hpos''
      exact .called c a p' hon hpos (by rw [hupdate, Function.update_self]) hcalls hr hu rfl hasks
        hshared hrest
    | released r' i r'' ht hthree hc hplace hi hpos'' =>
      subst hc hplace
      cases hu.symm.trans hpos''
      exact .released v a r' i hon hpos rfl rfl hshared

theorem Cast.priority_ge (h : Cast l σ) (hok : σ.Ok (program l)) (hon : σ.on = some t) :
    5 ≤ σ.priority t := by
  rcases on_cases hok hon with rfl | ⟨rfl, htwo⟩ | ⟨hthree, hle⟩
  · exact ge_of_eq h.first
  · exact ge_of_eq (h.second htwo)
  · obtain ⟨r, p, -, -, hprio⟩ := h.rider t hthree hle
    rw [hprio]
    cases r.rank <;> decide

end Waiting

section Urgent

/-- The elevator has signalled and has not gone to sleep. -/
def isSignalled : Option Op × Place → Bool
  | (none, .post (.waitEnter ..)) | (none, .post (.waitExit ..)) => true
  | (some _, .post (.enters ..)) | (some _, .post (.exits ..)) => true
  | _ => false

/-- The rider lets the waiters for an empty elevator go. -/
def isReleasing : Option Op × Place → Bool
  | (_, .rider _ (.broadcast _)) | (_, .rider _ .sigExit) => true
  | (_, .rider _ .exited) | (_, .rider _ .gone) => true
  | _ => false

/-- Why a thread at `x` runs though one at `y` with a higher priority is ready. -/
inductive Excused (x y : Option Op × Place) : Prop
  | fresh (r : Rider) (hy : y = (none, .rider r .start))
  | ended (hy : Ended y)
  | signalled (hx : isSignalled x = true)
  | released (r : Rider) (hx : isReleasing x = true) (hy : y = (none, .rider r .leaveEmpty))

/-- Riders run before the elevator, and riders of high rank before the others. -/
def Urgent (σ : Stage Lift Place) : Prop :=
  ∀ v u p, σ.on = some v → u ∈ σ.queues (.ready p) → σ.priority v < p →
    Excused (σ.pos v) (σ.pos u)

/-- The elevator goes on from its signal to its `t_wait`. -/
theorem signalled_advance {o : Option Op} {q : Post} {z : Option Op × Place}
    (h : isSignalled (o, .post q) = true) (hcalls : ∀ op, o = some op → Calls op q)
    (hwait : ∀ c, o ≠ some (.tWait c none))
    (hadv : Advance (program l).code s (o, .post q) s' z) : isSignalled z = true := by
  cases o with
  | none => cases q <;> cases h <;> cases hadv <;> rename_i hcode <;> cases hcode <;> rfl
  | some op =>
    have hop := hcalls op rfl
    cases q <;> cases h <;> cases hop <;> exact absurd rfl (hwait _)

theorem releasing_advance {z : Option Op × Place} (h : isReleasing x = true)
    (hadv : Advance (program l).code s x s' z) : isReleasing z = true := by
  obtain ⟨o, place⟩ := x
  cases place with
  | rider r q =>
    obtain ⟨q', hq', hadv⟩ := advance_rider hadv
    obtain ⟨o', place'⟩ := z
    obtain rfl : place' = .rider r q' := hq'
    cases q with
    | broadcast i =>
      cases hadv with
      | act _ _ _ hcode | call _ _ _ hcode =>
        simp only [rider] at hcode
        split at hcode <;> cases hcode
        rfl
      | ret => rfl
    | sigExit | exited =>
      cases hadv with
      | act _ _ _ hcode | call _ _ _ hcode =>
        cases hcode
        try rfl
      | ret => rfl
    | gone =>
      cases hadv with
      | act _ _ _ hcode | call _ _ _ hcode => cases hcode
      | ret => rfl
    | _ => cases o <;> cases h
  | _ => cases o <;> cases h

/-- The one that runs stays excused as it goes on. -/
theorem Excused.advance (h : Excused x y) {z : Option Op × Place}
    (hcalls : ∀ op q, x = (some op, .post q) → Calls op q)
    (hwait : ∀ c, x.1 ≠ some (.tWait c none))
    (hadv : Advance (program l).code s x s' z) : Excused z y := by
  cases h with
  | fresh r hy => exact .fresh r hy
  | ended hy => exact .ended hy
  | signalled hx =>
    obtain ⟨o, place⟩ := x
    cases place with
    | post q =>
      exact .signalled (signalled_advance hx (fun op ho => hcalls op q (by rw [ho])) hwait hadv)
    | _ => cases o <;> cases hx
  | released r hx hy => exact .released r (releasing_advance hx hadv) hy

/-- Nobody else moves when the one that runs goes on. -/
theorem Urgent.goes_on (h : Urgent σ) (hok : σ.Ok (program l)) (hon : σ.on = some t)
    (hadv : Advance (program l).code σ.shared (σ.pos t) s' y)
    (hwait : ∀ c, (σ.pos t).1 ≠ some (.tWait c none)) {v : Tid}
    (hv : some t = some v) (hu : u ∈ σ.queues (.ready p)) (hp : σ.priority v < p) :
    Excused (Function.update σ.pos t y v) (Function.update σ.pos t y u) := by
  cases hv
  have hne : u ≠ t := by
    rintro rfl
    exact hok.apart u hon _ hu
  rw [Function.update_self, Function.update_of_ne hne]
  exact (h t u p hon hu hp).advance (fun op q hq => pending_post hok hq) hwait hadv

theorem Urgent.beat (h : Urgent σ) (hc : Cast l σ) (hok : σ.Ok (program l)) (hl : AllValid l)
    (hbeat : Beat (program l) σ σ') : Urgent σ' := by
  intro v u p hv hu hp
  cases hbeat with
  | act t place next shared hon hpos hcode =>
    have hadv : Advance (program l).code σ.shared (σ.pos t) shared (none, next) :=
      hpos ▸ .act place next shared hcode
    exact h.goes_on hok hon hadv (by simp [hpos]) (hon.symm.trans hv) hu hp
  | call t op place next hon hpos hcode =>
    have hadv : Advance (program l).code σ.shared (σ.pos t) σ.shared (some op, next) :=
      hpos ▸ .call op place next hcode
    exact h.goes_on hok hon hadv (by simp [hpos]) (hon.symm.trans hv) hu hp
  | made t lock place hon hpos =>
    have hadv : Advance (program l).code σ.shared (σ.pos t) σ.shared (none, place) :=
      hpos ▸ .ret (.condCreate lock true) place (by simp)
    exact h.goes_on hok hon hadv (by simp [hpos]) (hon.symm.trans hv) hu hp
  | sigNone t c a place hon hpos =>
    have hadv : Advance (program l).code σ.shared (σ.pos t) σ.shared (none, place) :=
      hpos ▸ .ret (.tSig c a none) place (by simp)
    exact h.goes_on hok hon hadv (by simp [hpos]) (hon.symm.trans hv) hu hp
  | finish t place hon => exact h v u p hv hu hp
  | sigWake t c a place q w rest hon hpos hhead hhigh =>
    have hadv : Advance (program l).code σ.shared (σ.pos t) σ.shared (none, place) :=
      hpos ▸ .ret (.tSig c a none) place (by simp)
    rcases mem_append_iff.mp hu with hold | ⟨hq, rfl⟩
    · exact h.goes_on hok hon hadv (by simp [hpos]) (hon.symm.trans hv)
        (mem_of_taken hhead hold) hp
    · cases hon.symm.trans hv
      obtain rfl := QRef.ready.inj hq
      have hw : u ∈ σ.queues (.cond c q) := hhead ▸ List.mem_cons_self ..
      have hne : u ≠ v := by
        rintro rfl
        exact hok.apart u hon _ hw
      simp only [Function.update_self, Function.update_of_ne hne]
      cases hc.woken hok hl hon hpos hw with
      | elevator r q' hu =>
        subst hu
        have hge := hc.priority_ge hok hon
        have htwo := hc.second (hok.known _ 2 hw).2
        exact absurd hp (not_lt_of_ge (htwo.trans_le hge))
      | rider q' r w' ht hthree hplace hcalls =>
        subst hplace
        cases hcalls <;> exact .signalled rfl
      | released r i r' ht hthree _ hplace _ hpos' =>
        subst hplace
        exact .released r' rfl hpos'
  | fork t f a q place hon hpos ht =>
    cases hon.symm.trans hv
    obtain rfl := hc.forks hok hon hpos
    have hne : (1 : ℤ) ≠ σ.last + 1 := ne_of_lt (lt_of_le_of_lt ht (lt_next _))
    simp only [Function.update_of_ne hne] at hp
    rcases mem_append_iff.mp hu with hold | ⟨hq, rfl⟩
    · have hlt : u ≠ σ.last + 1 :=
        ne_of_lt (lt_of_le_of_lt (hok.known _ u hold).2 (lt_next _))
      have hu1 : u ≠ 1 := by
        rintro rfl
        exact hok.apart 1 hon _ hold
      simp only [Function.update_of_ne hlt, Function.update_of_ne hu1]
      have hopener := hc.pos_opener
      cases h 1 u p hon hold hp with
      | fresh r hy => exact .fresh r hy
      | ended hy => exact .ended hy
      | signalled hx | released _ hx =>
        rw [hpos] at hopener hx
        rcases hopener with hearly | hlate
        · cases hearly
          cases hx
        · cases hlate
          cases hx
    · obtain rfl := QRef.ready.inj hq
      simp only [Function.update_self]
      have hopener := hc.pos_opener
      rw [hpos] at hopener
      rcases hopener with hearly | hlate
      · cases hearly
        exact absurd hp (not_lt_of_ge (ge_of_eq hc.first))
      · cases hlate with
        | rider r rest hrest =>
          rw [body_rider hl (hrest.subset (List.mem_cons_self ..))]
          exact .fresh r rfl
  | dispatch t q rest on hon hhead hhigh hnext =>
    rcases hnext with rfl | ⟨rfl, -⟩
    · cases hv
      have hlevel : σ.priority v = q := hok.level q v (hhead ▸ List.mem_cons_self ..)
      have hold := mem_of_taken hhead hu
      rw [hhigh p (hlevel ▸ hp)] at hold
      cases hold
    · cases hv
  | linger t hon => cases hon.symm.trans hv
  | yield | preempt | sleep | exit | leave => cases hv

/-- When the elevator runs, a rider that could run has not begun or has ended, or the elevator
has just signalled it. -/
theorem Urgent.elevator (h : Urgent σ) (hc : Cast l σ) (hok : σ.Ok (program l))
    (hon : σ.on = some 2) (hu : σ.Awake u) (hthree : 3 ≤ u) :
    (∃ r, σ.pos u = (none, .rider r .start)) ∨ Ended (σ.pos u) ∨
      isSignalled (σ.pos 2) = true := by
  rcases hu with hrun | ⟨p, hp⟩
  · cases hon.symm.trans hrun
    exact absurd hthree (by decide)
  · obtain ⟨r, q, -, -, hprio⟩ := hc.rider u hthree (hok.known _ u hp).2
    have hlt : σ.priority 2 < p := by
      rw [← hok.level p u hp, hprio, hc.second (hok.running 2 hon).2]
      cases r.rank <;> decide
    cases h 2 u p hon hp hlt with
    | fresh r hy => exact Or.inl ⟨r, hy⟩
    | ended hy => exact Or.inr (Or.inl hy)
    | signalled hx => exact Or.inr (Or.inr hx)
    | released r hx =>
      obtain ⟨o, q, hq⟩ := hc.pos_post (hok.running 2 hon).2
      rw [hq] at hx
      cases o <;> cases hx

end Urgent

end UserThreads.Elevator
