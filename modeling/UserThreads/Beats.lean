import UserThreads.Stages
import UserThreads.Tallies

/-!
What every beat keeps. A thread is in one queue or on the processor, at the level of its
priority, and waits at a condition only where its code has a `t_wait`. What the beats
keep holds of the stage of every world that a run reaches.
-/
namespace UserThreads.Threads

open LinkedCells Queue Runs MultilevelQueue Tallies

variable {G L : Type}

section Stages

variable {P : Program G L} {g : Grain} {w w' w₀ : World G L} {tick : Tick} {t u : Tid} {c : CondId}
  {p : ℤ} {q : QRef} {σ σ' : Stage G L}

/-- What holds of every stage: a thread is in one place, and at the level of its priority. -/
structure Stage.Ok (P : Program G L) (σ : Stage G L) : Prop where
  known : ∀ q, ∀ t ∈ σ.queues q, 1 ≤ t ∧ t ≤ σ.last
  running : ∀ t, σ.on = some t → 1 ≤ t ∧ t ≤ σ.last
  ended : ∀ t ∈ σ.finished, 1 ≤ t ∧ t ≤ σ.last
  first : 1 ≤ σ.last
  apart : ∀ t, σ.on = some t → ∀ q, t ∉ σ.queues q
  once : ∀ t, Absent σ.queues t ∨ ∃ q, Once σ.queues q t
  level : ∀ p, ∀ t ∈ σ.queues (.ready p), σ.priority t = p
  rank : ∀ c p, ∀ t ∈ σ.queues (.cond c p), σ.priority t = p
  due : ∀ t op, (σ.pos t).1 = some op →
    ∃ shared place, P.code shared place = .call op (σ.pos t).2
  waits : ∀ c p, ∀ t ∈ σ.queues (.cond c p), (σ.pos t).1 = none ∧
    ∃ shared place, P.code shared place = .call (.tWait c none) (σ.pos t).2

/-- The thread can run, or runs. -/
def Stage.Awake (σ : Stage G L) (t : Tid) : Prop := σ.on = some t ∨ ∃ p, t ∈ σ.queues (.ready p)

theorem on_eq (h : w.stage.on = some t) :
    body w.sys.stack ≠ [] ∧ t = w.sys.currentRunningThread := by
  change w.sys.on = some t at h
  unfold State.on at h
  split at h
  · cases h
  · rename_i hne
    exact ⟨hne, (Option.some.inj h).symm⟩

/-- The priorities of the threads that are there stay. -/
theorem Beat.priority_kept (h : Beat P σ σ') (ht : t ≤ σ.last) : σ'.priority t = σ.priority t := by
  cases h with
  | fork => exact Function.update_of_ne (ne_of_lt (lt_of_le_of_lt ht (lt_next _))) ..
  | _ => rfl

/-- A thread that is not on the processor stays where it is in its code. -/
theorem Beat.pos_kept (h : Beat P σ σ') (ht : t ≤ σ.last) (hon : σ.on ≠ some t) :
    σ'.pos t = σ.pos t := by
  have hne : ∀ {u}, σ.on = some u → t ≠ u := by
    rintro u hu rfl
    exact hon hu
  cases h with
  | preempt | linger | finish | leave | dispatch => rfl
  | fork v _ _ _ _ hv =>
    exact (Function.update_of_ne (ne_of_lt (lt_of_le_of_lt ht (lt_next _))) ..).trans
      (Function.update_of_ne (hne hv) ..)
  | act _ _ _ _ hv | call _ _ _ _ hv | made _ _ _ hv | yield _ _ hv | sleep _ _ _ hv
  | sigNone _ _ _ _ hv | sigWake _ _ _ _ _ _ _ hv | exit _ _ _ hv =>
    exact Function.update_of_ne (hne hv) ..

theorem mem_of_taken {R : Levels QRef Tid} {r : QRef} {rest : List Tid} (hhead : R r = u :: rest)
    (ht : t ∈ R.set r rest q) : t ∈ R q := by
  by_cases hq : q = r
  · subst hq
    rw [Levels.set_self] at ht
    exact hhead ▸ List.mem_cons_of_mem _ ht
  · rwa [Levels.set_of_ne hq] at ht

/-- Who is in a queue after a beat and was not there before. -/
inductive Beat.Comes (σ σ' : Stage G L) (t : Tid) : QRef → Prop
  | back (hon : σ.on = some t) (hpos : (σ'.pos t).1 = (σ.pos t).1 ∨ (σ'.pos t).1 = none) :
      Comes σ σ' t (.ready (σ.priority t))
  | finished (hon : σ.on = none) (hover : t ∈ σ.finished) (ht : t ≤ σ.last) :
      Comes σ σ' t (.ready (σ.priority t))
  | new (p : ℤ) (ht : t = σ.last + 1) (hlast : σ'.last = σ.last + 1) (hp : σ'.priority t = p) :
      Comes σ σ' t (.ready p)
  | woken (c : CondId) (r : ℤ) (ht : t ∈ σ.queues (.cond c r)) :
      Comes σ σ' t (.ready (σ.priority t))
  | sleep (c : CondId) (place : L) (hon : σ.on = some t)
      (hpos : σ.pos t = (some (.tWait c none), place)) (hpos' : σ'.pos t = (none, place)) :
      Comes σ σ' t (.cond c (σ.priority t))

theorem Beat.comes (h : Beat P σ σ') (ht : t ∈ σ'.queues q) :
    t ∈ σ.queues q ∨ Beat.Comes σ σ' t q := by
  cases h with
  | act | call | made | sigNone | finish | exit | leave => exact Or.inl ht
  | fork v f a p place hon hpos =>
    rcases mem_append_iff.mp ht with hold | ⟨rfl, rfl⟩
    · exact Or.inl hold
    · exact Or.inr (.new p rfl rfl (Function.update_self ..))
  | yield v place hon hpos =>
    rcases mem_append_iff.mp ht with hold | ⟨rfl, rfl⟩
    · exact Or.inl hold
    · exact Or.inr (.back hon (Or.inr (by simp)))
  | preempt v hon =>
    rcases mem_append_iff.mp ht with hold | ⟨rfl, rfl⟩
    · exact Or.inl hold
    · exact Or.inr (.back hon (Or.inl rfl))
  | linger v hon hover hv =>
    rcases mem_append_iff.mp ht with hold | ⟨rfl, rfl⟩
    · exact Or.inl hold
    · exact Or.inr (.finished hon hover hv)
  | sleep v c place hon hpos =>
    rcases mem_append_iff.mp ht with hold | ⟨rfl, rfl⟩
    · exact Or.inl hold
    · exact Or.inr (.sleep c place hon hpos (Function.update_self ..))
  | sigWake v c a place p u rest hon hpos hhead hhigh =>
    rcases mem_append_iff.mp ht with hold | ⟨rfl, rfl⟩
    · exact Or.inl (mem_of_taken hhead hold)
    · exact Or.inr (.woken c p (hhead ▸ List.mem_cons_self ..))
  | dispatch v p rest on hon hhead => exact Or.inl (mem_of_taken hhead ht)

theorem Beat.ended (h : Beat P σ σ') (hok : σ.Ok P) : ∀ t ∈ σ'.finished, 1 ≤ t ∧ t ≤ σ'.last := by
  intro t ht
  cases h with
  | finish v place hon | exit v n place hon =>
    rcases ht with rfl | hold
    · exact hok.running _ hon
    · exact hok.ended t hold
  | fork =>
    obtain ⟨hone, hle⟩ := hok.ended t ht
    exact ⟨hone, le_trans hle (le_of_lt (lt_next _))⟩
  | _ => exact hok.ended t ht

theorem Beat.first (h : Beat P σ σ') (hok : σ.Ok P) : 1 ≤ σ'.last := by
  cases h with
  | fork => exact le_trans hok.first (le_of_lt (lt_next _))
  | _ => exact hok.first

theorem Beat.members (h : Beat P σ σ') (hok : σ.Ok P) : ∀ q, ∀ t ∈ σ'.queues q, 1 ≤ t := by
  intro q t ht
  rcases h.comes ht with hold | hcomes
  · exact (hok.known q t hold).1
  · cases hcomes with
    | back hon | sleep _ _ hon => exact (hok.running t hon).1
    | finished _ hover => exact (hok.ended t hover).1
    | new _ hnew =>
      rw [hnew]
      exact le_trans hok.first (le_of_lt (lt_next _))
    | woken _ _ hmem => exact (hok.known _ t hmem).1

/-- Who waits, and at what level, is kept. -/
theorem Beat.levels (h : Beat P σ σ') (hok : σ.Ok P) :
    (∀ p, ∀ t ∈ σ'.queues (.ready p), σ'.priority t = p) := by
  intro p t ht
  rcases h.comes ht with hold | hcomes
  · rw [h.priority_kept (hok.known _ t hold).2]
    exact hok.level p t hold
  · cases hcomes with
    | back hon => exact h.priority_kept (hok.running t hon).2
    | finished _ _ hle => exact h.priority_kept hle
    | new p _ _ hp => exact hp
    | woken c r hmem => exact h.priority_kept (hok.known _ t hmem).2

theorem Beat.waits (h : Beat P σ σ') (hok : σ.Ok P) (ht : t ∈ σ'.queues (.cond c p)) :
    (σ'.pos t).1 = none ∧
      ∃ shared place, P.code shared place = .call (.tWait c none) (σ'.pos t).2 := by
  rcases h.comes ht with hold | hcomes
  · rw [h.pos_kept (hok.known _ t hold).2 fun hon => hok.apart t hon _ hold]
    exact hok.waits c p t hold
  · cases hcomes with
    | sleep c place hon hpos hpos' =>
      obtain ⟨shared, before, hcode⟩ := hok.due t _ (congrArg Prod.fst hpos)
      rw [hpos] at hcode
      rw [hpos']
      exact ⟨rfl, shared, before, hcode⟩

/-- How a thread goes on in its code, with the shared variables. -/
inductive Advance (code : G → L → Stmt G L) (shared : G) :
    Option Op × L → G → Option Op × L → Prop
  | act (place next : L) (shared' : G) (hcode : code shared place = .act shared' next) :
      Advance code shared (none, place) shared' (none, next)
  | call (op : Op) (place next : L) (hcode : code shared place = .call op next) :
      Advance code shared (none, place) shared (some op, next)
  | ret (op : Op) (place : L) (hop : ∀ f v p, op ≠ .tFork f v p) :
      Advance code shared (some op, place) shared (none, place)

theorem Advance.of_call {code : G → L → Stmt G L} {shared shared' : G} {op : Op} {place : L}
    {y : Option Op × L} (h : Advance code shared (some op, place) shared' y) :
    shared' = shared ∧ y = (none, place) := by
  cases h
  exact ⟨rfl, rfl⟩

/-- What a beat does to the places. -/
inductive Shifts (P : Program G L) (σ σ' : Stage G L) : Prop
  | stay (hshared : σ'.shared = σ.shared) (hpos : σ'.pos = σ.pos) (hlast : σ'.last = σ.last)
  | advance (t : Tid) (y : Option Op × L) (hon : σ.on = some t)
      (hadvance : Advance P.code σ.shared (σ.pos t) σ'.shared y)
      (hpos : σ'.pos = Function.update σ.pos t y) (hlast : σ'.last = σ.last)
  | fork (t : Tid) (f : ThreadFunc) (v : AnyPtr) (p : ℤ) (place : L) (hon : σ.on = some t)
      (hplace : σ.pos t = (some (.tFork f v p), place)) (hshared : σ'.shared = σ.shared)
      (hpos : σ'.pos = Function.update (Function.update σ.pos t (none, place)) (σ.last + 1)
        (none, P.body f v)) (hlast : σ'.last = σ.last + 1)
      (hprio : σ'.priority (σ.last + 1) = p)

theorem Beat.shifts (h : Beat P σ σ') : Shifts P σ σ' := by
  cases h with
  | preempt | linger | finish | leave | dispatch => exact .stay rfl rfl rfl
  | fork t f v p place hon hpos =>
    exact .fork t f v p place hon hpos rfl rfl rfl (Function.update_self ..)
  | act t place next shared hon hpos hcode =>
    exact .advance t _ hon (hpos ▸ .act place next shared hcode) rfl rfl
  | call t op place next hon hpos hcode =>
    exact .advance t _ hon (hpos ▸ .call op place next hcode) rfl rfl
  | made t _ place hon hpos | yield t place hon hpos | sleep t _ place hon hpos
  | sigNone t _ _ place hon hpos | sigWake t _ _ place _ _ _ hon hpos | exit t _ place hon hpos =>
    exact .advance t _ hon (hpos ▸ .ret _ place (by simp)) rfl rfl

theorem Beat.last_le (h : Beat P σ σ') : σ.last ≤ σ'.last := by
  cases h.shifts with
  | stay _ _ hlast | advance _ _ _ _ _ hlast => exact ge_of_eq hlast
  | fork _ _ _ _ _ _ _ _ _ hlast => exact hlast ▸ le_of_lt (lt_next _)

/-- A thread that there is not yet stays where it is. -/
theorem Beat.pos_unborn (h : Beat P σ σ') (hok : σ.Ok P) (ht : σ'.last < t) :
    σ'.pos t = σ.pos t := by
  have hne : ∀ {u}, σ.on = some u → t ≠ u := by
    rintro u hon rfl
    exact absurd (hok.running t hon).2 (not_le_of_gt (lt_of_le_of_lt h.last_le ht))
  cases h.shifts with
  | stay _ hpos => rw [hpos]
  | advance u y hon _ hpos => rw [hpos, Function.update_of_ne (hne hon)]
  | fork u _ _ _ _ hon _ _ hpos hlast =>
    rw [hpos, Function.update_of_ne (hlast ▸ ne_of_gt ht), Function.update_of_ne (hne hon)]

/-- What the places of all threads weigh. -/
def Stage.total (σ : Stage G L) (weight : Option Op × L → ℤ) : ℤ :=
  tally weight (tids σ.last) σ.pos

/-- The total changes by what the place of one thread weighs, and by the place of a new one. -/
theorem Stage.total_advance {y : Option Op × L} (weight : Option Op × L → ℤ) (hok : σ.Ok P)
    (hon : σ.on = some t) (hpos : σ'.pos = Function.update σ.pos t y) (hlast : σ'.last = σ.last) :
    σ'.total weight + weight (σ.pos t) = σ.total weight + weight y := by
  rw [Stage.total, Stage.total, hpos, hlast]
  exact tally_update (mem_tids_iff.mpr (hok.running t hon))

theorem Stage.total_fork {x y : Option Op × L} (weight : Option Op × L → ℤ) (hok : σ.Ok P)
    (hon : σ.on = some t)
    (hpos : σ'.pos = Function.update (Function.update σ.pos t x) (σ.last + 1) y)
    (hlast : σ'.last = σ.last + 1) :
    σ'.total weight + weight (σ.pos t) = σ.total weight + weight x + weight y := by
  obtain ⟨hnext, hnot⟩ := insert_next (le_trans Int.one_nonneg hok.first)
  rw [Stage.total, Stage.total, hpos, hlast, ← hnext, tally_insert hnot]
  have hone : tally weight (tids σ.last) (Function.update σ.pos t x) + weight (σ.pos t) =
      tally weight (tids σ.last) σ.pos + weight x :=
    tally_update (mem_tids_iff.mpr (hok.running t hon))
  omega

/-- A value that changes with the weights is the total. -/
theorem Shifts.conserves (h : Shifts P σ σ') (hok : σ.Ok P) (weight : Option Op × L → ℤ)
    (value : G → ℤ)
    (hadvance : ∀ t x y, σ.on = some t → σ.pos t = x → Advance P.code σ.shared x σ'.shared y →
      value σ'.shared + weight x = value σ.shared + weight y)
    (hforks : ∀ t f v p place, σ.on = some t → σ.pos t = (some (.tFork f v p), place) →
      weight (none, place) + weight (none, P.body f v) = weight (some (.tFork f v p), place)) :
    value σ'.shared - σ'.total weight = value σ.shared - σ.total weight := by
  cases h with
  | stay hshared hpos hlast => rw [Stage.total, Stage.total, hshared, hpos, hlast]
  | advance t y hon hadv hpos hlast =>
    have hvalue := hadvance t _ y hon rfl hadv
    have htotal := Stage.total_advance weight hok hon hpos hlast
    omega
  | fork t f v p place hon hplace hshared hpos hlast =>
    have hweight := hforks t f v p place hon hplace
    have htotal := Stage.total_fork weight hok hon hpos hlast
    rw [hplace] at htotal
    rw [hshared]
    omega

/-- Who is taken from a queue is in none. -/
theorem Stage.Ok.taken {rest : List Tid} (hok : σ.Ok P) {r : QRef}
    (hhead : σ.queues r = u :: rest) : u ∉ σ.queues.set r rest q := by
  rcases hok.once u with habsent | ⟨r', honce⟩
  · exact absurd (hhead ▸ List.mem_cons_self ..) (habsent r)
  · exact honce.take hhead q

/-- Why a thread can run after a beat: it could before, and then it is in no `t_wait` that the
beat ends, or it is new, or it has ended, or a signal has woken it. -/
inductive Stage.Wakes (σ σ' : Stage G L) (t : Tid) : Prop
  | old (hawake : σ.Awake t)
      (hwait : ∀ c, (σ.pos t).1 = some (.tWait c none) → σ'.pos t = σ.pos t) : Wakes σ σ' t
  | new (ht : t = σ.last + 1) (hlast : σ'.last = σ.last + 1) : Wakes σ σ' t
  | finished (hover : t ∈ σ.finished) (hpos : σ'.pos t = σ.pos t) : Wakes σ σ' t
  | woken (v : Tid) (c : CondId) (a : AnyPtr) (place : L) (p : ℤ) (hon : σ.on = some v)
      (hpos : σ.pos v = (some (.tSig c a none), place)) (hmem : t ∈ σ.queues (.cond c p))
      (hpos' : σ'.pos = Function.update σ.pos v (none, place)) (hshared : σ'.shared = σ.shared)
      (hrest : ∀ u, σ'.Awake u → u = t ∨ σ.Awake u) : Wakes σ σ' t

theorem Stage.Wakes.of_old {v : Tid} {y : Option Op × L} (h : σ.Awake t)
    (hpos : σ'.pos = Function.update σ.pos v y)
    (hv : t = v → ∀ c, (σ.pos t).1 ≠ some (.tWait c none)) : Stage.Wakes σ σ' t := by
  refine .old h fun c hc => ?_
  by_cases htv : t = v
  · exact absurd hc (hv htv c)
  · rw [hpos, Function.update_of_ne htv]

theorem mem_append_cases {R : Levels QRef Tid} {r : QRef} (h : t ∈ R.append r u q) :
    t ∈ R q ∨ t = u :=
  (mem_append_iff.mp h).imp id And.right

theorem Beat.wakes (h : Beat P σ σ') (hok : σ.Ok P) (ht : σ'.Awake t) : Stage.Wakes σ σ' t := by
  cases h with
  | act v place next shared hon hpos | call v op place next hon hpos
  | made v lock place hon hpos | sigNone v c a place hon hpos =>
    refine .of_old (v := v) (y := _) ht rfl ?_
    rintro rfl c
    simp [hpos]
  | finish v place hon => exact .old ht fun _ _ => rfl
  | leave v hon =>
    rcases ht with hnone | hready
    · cases hnone
    · exact .old (Or.inr hready) fun _ _ => rfl
  | fork v f a q place hon hpos hle =>
    by_cases hawake : σ.Awake t
    · refine .old hawake fun c hc => ?_
      have htv : t ≠ v := by
        rintro rfl
        simp [hpos] at hc
      have hlt : t ≤ σ.last := by
        rcases hawake with hrun | ⟨r, hr⟩
        · exact (hok.running t hrun).2
        · exact (hok.known _ t hr).2
      exact (Function.update_of_ne (ne_of_lt (lt_of_le_of_lt hlt (lt_next _))) ..).trans
        (Function.update_of_ne htv ..)
    · rcases ht with hrun | ⟨r, hr⟩
      · exact absurd (Or.inl hrun) hawake
      · rcases mem_append_cases hr with hr | rfl
        · exact absurd (Or.inr ⟨r, hr⟩) hawake
        · exact .new rfl rfl
  | yield v place hon hpos =>
    refine .of_old (v := v) (y := _) ?_ rfl ?_
    · rcases ht with hnone | ⟨r, hr⟩
      · cases hnone
      · rcases mem_append_cases hr with hr | rfl
        · exact Or.inr ⟨r, hr⟩
        · exact Or.inl hon
    · rintro rfl c
      simp [hpos]
  | preempt v hon =>
    refine .old ?_ fun _ _ => rfl
    rcases ht with hnone | ⟨r, hr⟩
    · cases hnone
    · rcases mem_append_cases hr with hr | rfl
      · exact Or.inr ⟨r, hr⟩
      · exact Or.inl hon
  | linger v hon hover =>
    rcases ht with hrun | ⟨r, hr⟩
    · exact .old (Or.inl hrun) fun _ _ => rfl
    · rcases mem_append_cases hr with hr | rfl
      · exact .old (Or.inr ⟨r, hr⟩) fun _ _ => rfl
      · exact .finished hover rfl
  | sleep v c place hon hpos =>
    rcases ht with hnone | ⟨r, hr⟩
    · cases hnone
    · have hr : t ∈ σ.queues.append (.cond c (σ.priority v)) v (.ready r) := hr
      rcases mem_append_iff.mp hr with hr | ⟨hq, -⟩
      · refine .of_old (v := v) (y := _) (Or.inr ⟨r, hr⟩) rfl ?_
        rintro rfl
        exact absurd hr (hok.apart t hon _)
      · cases hq
  | sigWake v c a place q w rest hon hpos hhead hhigh =>
    have hold : ∀ u r,
        u ∈ (σ.queues.set (.cond c q) rest).append (.ready (σ.priority w)) w (.ready r) →
        σ.Awake u ∨ u = w := fun u r hu =>
      (mem_append_cases hu).imp (fun hu => Or.inr ⟨r, mem_of_taken hhead hu⟩) id
    have hcases : ∀ u, σ.on = some u ∨ (∃ r, u ∈
        (σ.queues.set (.cond c q) rest).append (.ready (σ.priority w)) w (.ready r)) →
        σ.Awake u ∨ u = w := by
      rintro u (hrun | ⟨r, hr⟩)
      · exact Or.inl (Or.inl hrun)
      · exact hold u r hr
    rcases hcases t ht with hawake | rfl
    · refine .of_old (v := v) (y := _) hawake rfl ?_
      rintro rfl c
      simp [hpos]
    · exact .woken v c a place q hon hpos (hhead ▸ List.mem_cons_self ..) rfl rfl
        fun u hu => (hcases u hu).symm
  | exit v n place hon hpos =>
    refine .of_old (v := v) (y := _) ?_ rfl ?_
    · rcases ht with hnone | hready
      · cases hnone
      · exact Or.inr hready
    · rintro rfl c
      simp [hpos]
  | dispatch v q rest on hon hhead hhigh hnext =>
    refine .old ?_ fun _ _ => rfl
    have hv : v ∈ σ.queues (.ready q) := hhead ▸ List.mem_cons_self ..
    rcases ht with hrun | ⟨r, hr⟩
    · rcases hnext with rfl | ⟨rfl, -⟩
      · cases hrun
        exact Or.inr ⟨q, hv⟩
      · cases hrun
    · exact Or.inr ⟨r, mem_of_taken hhead hr⟩

/-- A thread that can run, has made no call and has not ended can still run. -/
theorem Beat.keeps_awake (h : Beat P σ σ') (hawake : σ.Awake t) (hnone : (σ.pos t).1 = none)
    (hover : t ∉ σ.finished) : σ'.Awake t := by
  have hready : ∀ {R : Levels QRef Tid} {r : QRef} {u : Tid}, (∃ p, t ∈ R (.ready p)) →
      ∃ p, t ∈ R.append r u (.ready p) := fun ⟨p, hp⟩ => ⟨p, mem_append_iff.mpr (Or.inl hp)⟩
  cases h with
  | act | call | made | sigNone | finish => exact hawake
  | fork | linger => exact hawake.imp id hready
  | yield v place hon | preempt v hon =>
    rcases hawake with hrun | hold
    · cases hon.symm.trans hrun
      exact Or.inr ⟨_, mem_append_iff.mpr (Or.inr ⟨rfl, rfl⟩)⟩
    · exact Or.inr (hready hold)
  | sleep v c place hon hpos =>
    rcases hawake with hrun | hold
    · cases hon.symm.trans hrun
      rw [hpos] at hnone
      cases hnone
    · exact Or.inr (hready (r := .cond c (σ.priority v)) (u := v) hold)
  | sigWake v c a place p u rest hon hpos hhead =>
    refine hawake.imp id fun ⟨q, hq⟩ => hready ⟨q, ?_⟩
    rwa [Levels.set_of_ne (by simp)]
  | exit v n place hon hpos =>
    rcases hawake with hrun | hold
    · cases hon.symm.trans hrun
      rw [hpos] at hnone
      cases hnone
    · exact Or.inr hold
  | leave v hon hgone =>
    rcases hawake with hrun | hold
    · cases hon.symm.trans hrun
      exact absurd hgone hover
    · exact Or.inr hold
  | dispatch v p rest on hon hhead hhigh hnext =>
    rcases hawake with hrun | ⟨q, hq⟩
    · cases hon.symm.trans hrun
    · by_cases htv : t = v
      · subst htv
        rcases hnext with rfl | ⟨-, hgone⟩
        · exact Or.inl rfl
        · exact absurd hgone hover
      · refine Or.inr ⟨q, ?_⟩
        change t ∈ σ.queues.set (.ready p) rest (.ready q)
        by_cases hqp : QRef.ready q = .ready p
        · rw [hqp, hhead] at hq
          rw [hqp, Levels.set_self]
          exact (List.mem_cons.mp hq).resolve_left htv
        · rwa [Levels.set_of_ne hqp]

/-- What the library's own invariants say of the stage. -/
theorem Staged.stage_ok (h : Staged P w) (hfirst : 1 ≤ w.stage.last)
    (hended : ∀ t ∈ w.stage.finished, 1 ≤ t ∧ t ≤ w.stage.last)
    (hmade : ∀ q, ∀ t ∈ w.stage.queues q, 1 ≤ t)
    (hlevel : ∀ p, ∀ t ∈ w.stage.queues (.ready p), w.stage.priority t = p)
    (hwaits : ∀ c p, ∀ t ∈ w.stage.queues (.cond c p), (w.stage.pos t).1 = none ∧
      ∃ shared place, P.code shared place = .call (.tWait c none) (w.stage.pos t).2) :
    w.stage.Ok P where
  known q t ht := ⟨hmade q t ht, h.hosted.calm.unjoined.tids.booked.fits_of_mem (q := q) ht⟩
  running t hon := by
    obtain ⟨hne, rfl⟩ := on_eq hon
    exact h.hosted.calm.forked_current hne
  ended := hended
  first := hfirst
  apart t hon q := by
    obtain ⟨hne, rfl⟩ := on_eq hon
    exact h.hosted.calm.unjoined.standing.current (fun hv => hne (body_vacant hv)) q
  once := h.hosted.calm.unjoined.standing.once
  level := hlevel
  rank c p t ht := ((h.waited.waitersOk c).priority p t ht).1
  due t op hdue := h.due_code hdue
  waits := hwaits

theorem Staged.ok_step (h : Staged P w) (hok : w.stage.Ok P) (hP : P.Bare)
    (hown : EntersOwn tick w) (hstep : w.step g P tick = some w') : w'.stage.Ok P := by
  have h' := h.step hP hstep
  rcases h.seen hP hown hstep with hsame | hbeat
  · exact h'.stage_ok (hsame ▸ hok.first) (hsame ▸ hok.ended)
      (fun q t ht => (hok.known q t (hsame ▸ ht)).1) (hsame ▸ hok.level) (hsame ▸ hok.waits)
  · exact h'.stage_ok (hbeat.first hok) (hbeat.ended hok) (hbeat.members hok) (hbeat.levels hok)
      fun _ _ _ => hbeat.waits hok

/-- The stage on which a program begins. -/
theorem World.Opens.stage {calls : List MainCall} {shared : G}
    (h : World.Opens P calls shared w) :
    w.stage = {
      shared := shared
      on := none
      queues := Levels.append (fun _ => []) (.ready (w.stage.priority 1)) 1
      pos := fun _ => (none, P.body 0 .null)
      priority := w.stage.priority
      last := 1
      finished := ∅ } := by
  obtain ⟨f, v, p, hb⟩ := h.initial.begun
  have hprio : w.stage.priority 1 = p := by
    change (w.sys.tcb 1).priority = p
    simp [hb.tcb]
  have hdue : ∀ t, w.sys.due t = none := by
    intro t
    rw [State.due, h.initial.point]
    rfl
  have hqueues := hb.contents h.hosted.calm.unjoined.queues
  obtain ⟨cap, p', -, hshared, hthreads⟩ := h
  refine Stage.ext hshared (on_none (by rw [hb.stack]; rfl)) ?_ ?_ rfl hb.gThreadID ?_
  · exact hprio ▸ hqueues
  · exact funext fun t => Prod.ext (hdue t) (congrFun hthreads t)
  · ext t
    simp [World.stage, State.Ended, hb.hist]

/-- The running thread executes a statement of its own code. -/
def AtStatement (tick : Tick) (w : World G L) : Prop := tick = .run ∧ w.sys.stack = [.user]

instance (tick : Tick) (w : World G L) : Decidable (AtStatement tick w) :=
  inferInstanceAs (Decidable (_ ∧ _))

/-- A thread goes on to another place. -/
def GoesOn (σ σ' : Stage G L) : Prop := ∃ t, t ≤ σ.last ∧ (σ'.pos t).2 ≠ (σ.pos t).2

/-- A thread goes on only by executing a statement. -/
theorem Staged.at_statement (h : Staged P w) (hown : EntersOwn tick w)
    (hstep : w.step g P tick = some w') (hmoves : GoesOn w.stage w'.stage) :
    AtStatement tick w := by
  obtain ⟨t, hle, hne⟩ := hmoves
  cases World.goes hstep with
  | expire => exact absurd rfl hne
  | act _ _ hstack | call _ _ _ hstack | ret _ hstack => exact ⟨rfl, hstack⟩
  | exec s hstack hmove =>
    refine absurd ?_ hne
    change P.launch w.sys w.threads t = w.threads t
    have hlaunch := P.launches w.sys w.threads
    generalize P.launch w.sys w.threads = threads at hlaunch ⊢
    cases hlaunch with
    | fork => exact Function.update_of_ne (ne_of_lt (lt_of_le_of_lt hle (lt_next _))) ..
    | start k hstart =>
      obtain ⟨rfl, hplace⟩ := h.hosted.newborn hstart
      rw [hown rfl hstart]
      exact congrFun (Function.update_eq_self_iff.mpr (congrArg Prod.snd hplace).symm) t
    | same => rfl

theorem World.Opens.stage_ok {calls : List MainCall} {shared : G}
    (h : World.Opens P calls shared w₀) : w₀.stage.Ok P := by
  have hqueues : w₀.stage.queues =
      Levels.append (fun _ => []) (.ready (w₀.stage.priority 1)) 1 := congrArg Stage.queues h.stage
  have hlast : w₀.stage.last = 1 := congrArg Stage.last h.stage
  have hover : w₀.stage.finished = ∅ := congrArg Stage.finished h.stage
  refine h.staged.stage_ok (le_of_eq hlast.symm) (by simp [hover]) (fun q t ht => ?_)
    (fun p t ht => ?_) fun c p t ht => ?_
  · rw [hqueues] at ht
    rcases mem_append_iff.mp ht with hold | ⟨-, rfl⟩
    · exact absurd hold List.not_mem_nil
    · exact le_rfl
  · rw [hqueues] at ht
    rcases mem_append_iff.mp ht with hold | ⟨hp, rfl⟩
    · exact absurd hold List.not_mem_nil
    · exact (QRef.ready.inj hp).symm
  · rw [hqueues] at ht
    rcases mem_append_iff.mp ht with hold | ⟨hp, -⟩
    · exact absurd hold List.not_mem_nil
    · cases hp

/-- An invariant of the beats is an invariant of the runs of what is observed of the worlds. -/
theorem World.Opens.observed {S : Type} (world : S → World G L) {step : Tick → S → Option S}
    {ok : Tick → S → Prop} {I : S → Prop} {a b : S} {calls : List MainCall} {shared : G}
    (h : World.Opens P calls shared (world a)) (hP : P.Bare) (hrun : Run step ok a b)
    (hworld : ∀ tick a b, step tick a = some b → (world a).step g P tick = some (world b))
    (hown : ∀ tick a, ok tick a → EntersOwn tick (world a)) (hstart : I a)
    (hsame : ∀ tick a b, step tick a = some b → (world b).stage = (world a).stage → I a → I b)
    (hbeat : ∀ tick a b, step tick a = some b → ok tick a → (world a).stage.Ok P →
      Beat P (world a).stage (world b).stage →
      (GoesOn (world a).stage (world b).stage → AtStatement tick (world a)) → I a → I b) :
    (world b).stage.Ok P ∧ I b := by
  refine (hrun.invariant (I := fun a => Staged P (world a) ∧ (world a).stage.Ok P ∧ I a)
    ⟨h.staged, h.stage_ok, hstart⟩ fun tick a b hI htick hstep => ?_).2
  obtain ⟨hstaged, hstage, hinv⟩ := hI
  have hmove := hworld tick a b hstep
  have henters := hown tick a htick
  refine ⟨hstaged.step hP hmove, hstaged.ok_step hstage hP henters hmove, ?_⟩
  rcases hstaged.seen hP henters hmove with heq | hseen
  · exact hsame tick a b hstep heq hinv
  · exact hbeat tick a b hstep htick hstage hseen (hstaged.at_statement henters hmove) hinv

/-- An invariant of the beats is an invariant of the runs. -/
theorem World.Opens.stage_invariant {calls : List MainCall} {shared : G}
    {ok : Tick → World G L → Prop} {cond I : Stage G L → Prop} (h : World.Opens P calls shared w₀)
    (hP : P.Bare) (hrun : Run (World.step g P) ok w₀ w)
    (hok : ∀ tick w, ok tick w → EntersOwn tick w ∧ cond w.stage) (hstart : I w₀.stage)
    (hbeat : ∀ σ σ' : Stage G L, σ.Ok P → cond σ → Beat P σ σ' → I σ → I σ') :
    w.stage.Ok P ∧ I w.stage :=
  h.observed id (I := fun w => I w.stage) hP hrun (fun _ _ _ => id)
    (fun tick a h => (hok tick a h).1) hstart (fun _ _ _ _ heq hI => heq ▸ hI)
    fun tick _ _ _ htick hstage hmove _ => hbeat _ _ hstage (hok tick _ htick).2 hmove

end Stages
end UserThreads.Threads
