import UserThreads.CriticalSections
import UserThreads.Executions

/-!
The one-lane bridge of `TEST3A.C`. A car is a thread that runs `Arrive`, and then
the thread with the body `Depart` that it forks. Lock 0 is `my_lock` and condition
0 is `cond`. For each heading the cars on the bridge are counted by a weight of
the places; what the counts and the shared variables have to do with each other
depends on the place of the running thread, and at no place that it can lose the
processor is there an exception.
-/
namespace UserThreads.Bridge

open Threads Runs Tallies

/-- `dir`; `open` is `none`, where a variable can have it. -/
inductive Heading
  | north
  | south
deriving DecidableEq

/-- `(any_ptr)my_dir`. -/
def Heading.val : Heading → AnyPtr
  | .north => .data 2
  | .south => .data 3

/-- `(dir)val`, where `val` is a direction. -/
def heading (val : AnyPtr) : Heading := if val = .data 3 then .south else .north

@[simp] theorem heading_val (d : Heading) : heading d.val = d := by
  cases d <;> rfl

structure Lane where
  numCars : ℤ
  curDir : Option Heading

/-- The places in the bodies, with `my_dir`; a place stands before the statement it is named
after. -/
inductive Place
  /-- `funcA`, with the cars that are left to fork and their priorities -/
  | funcA (cars : List (Heading × ℤ))
  | arrive (d : Heading)
  | test (d : Heading)
  | await (d : Heading)
  | numCars (d : Heading)
  | curDir (d : Heading)
  | release (d : Heading)
  | fork (d : Heading)
  | arrived (d : Heading)
  | depart (d : Heading)
  | leave (d : Heading)
  | isLast
  | setOpen
  /-- the loop of `t_sig`, with `i` -/
  | broadcast (i : ℕ)
  | unlock
  | departed
deriving DecidableEq

/-- The program: function 1 is `Arrive`, function 2 is `Depart`, and the others fork the cars. -/
def program (cars : List (Heading × ℤ)) : Program Lane Place where
  body f val := match f with
    | 1 => .arrive (heading val)
    | 2 => .depart (heading val)
    | _ => .funcA cars
  code g
    | .funcA [] => .ret
    | .funcA ((d, priority) :: rest) => .call (.tFork 1 d.val priority) (.funcA rest)
    | .arrive d => .call (.lockAcquire 0) (.test d)
    | .test d => .act g (if g.curDir ≠ some d ∧ g.curDir ≠ none then .await d else .numCars d)
    | .await d => .call (.tWait 0 (some 0)) (.test d)
    | .numCars d => .act { g with numCars := g.numCars + 1 } (.curDir d)
    | .curDir d => .act { g with curDir := some d } (.release d)
    | .release d => .call (.lockRelease 0) (.fork d)
    | .fork d => .call (.tFork 2 d.val 10) (.arrived d)
    | .arrived _ => .ret
    | .depart d => .call (.lockAcquire 0) (.leave d)
    | .leave _ => .act { g with numCars := g.numCars - 1 } .isLast
    | .isLast => .act g (if g.numCars = 0 then .setOpen else .unlock)
    | .setOpen => .act { g with curDir := none } (.broadcast 0)
    | .broadcast i =>
      if i < 30 then .call (.tSig 0 .null (some 0)) (.broadcast (i + 1)) else .act g .unlock
    | .unlock => .call (.lockRelease 0) .departed
    | .departed => .ret

/-- What `main` creates. -/
def objects : List MainCall := [.lock, .cond (some 0)]

/-- The values of the shared variables when the program is loaded. -/
def opened : Lane := ⟨0, none⟩

/-- The car on the bridge that the thread is: past `num_cars++` of `Arrive`, or with the body
`Depart` and not past `num_cars--`. -/
def car : Option Op × Place → Option Heading
  | (_, .curDir d) | (_, .release d) | (_, .fork d) | (_, .depart d) | (_, .leave d) => some d
  | (op, .arrived d) => if op = some (.tFork 2 d.val 10) then some d else none
  | _ => none

/-- The places that are reached only from the return of `lock_acquire` or `t_wait`, and those
that are reached only from these. -/
def Place.isEntry : Place → Bool
  | .test _ | .leave _ => true
  | _ => false

def Place.isInner : Place → Bool
  | .numCars _ | .curDir _ | .isLast | .setOpen => true
  | _ => false

/-- Counts the cars on the bridge with the heading. -/
def weight (d : Heading) (x : Option Op × Place) : ℤ := if car x = some d then 1 else 0

/-- The direction is that of the cars on the bridge, and `open` if there are none. -/
def Agreed (g : Lane) (b : Heading → ℤ) : Prop :=
  (∀ d, b d ≠ 0 → g.curDir = some d) ∧ (g.curDir ≠ none → g.numCars ≠ 0)

/-- The shared variables and the numbers of cars when the running thread is at the place. -/
def Fits (g : Lane) (b : Heading → ℤ) : Place → Prop
  | .numCars d => Agreed g b ∧ (g.curDir = none ∨ g.curDir = some d)
  | .curDir d => b d ≠ 0 ∧ ∀ e, b e ≠ 0 → e = d
  | .isLast => ∀ d, b d ≠ 0 → g.curDir = some d
  | .setOpen => ∀ d, b d = 0
  | _ => Agreed g b

/-- What holds of the shared variables and the numbers of cars on the bridge. -/
structure Holds (g : Lane) (b : Heading → ℤ) (place : Place) : Prop where
  numCars : g.numCars = b .north + b .south
  fits : Fits g b place

def Crossing (w : World Lane Place) : Prop :=
  Holds w.shared (w.totals weight) (w.threads w.sys.currentRunningThread)

variable {cars : List (Heading × ℤ)} {g : Grain} {w w' w₀ : World Lane Place} {tick : Tick}

theorem program_plain : (program cars).Plain := by
  intro shared place op next h
  cases place with
  | funcA rest =>
    cases rest <;> cases h
    rfl
  | broadcast i =>
    simp only [program] at h
    split at h <;> cases h
    rfl
  | _ => cases h; try rfl

theorem body_cases (cars : List (Heading × ℤ)) (f : ThreadFunc) (v : AnyPtr) :
    (program cars).body f v = .arrive (heading v) ∨
      (program cars).body f v = .depart (heading v) ∨ (program cars).body f v = .funcA cars := by
  unfold program
  dsimp only
  split
  · exact Or.inl rfl
  · exact Or.inr (Or.inl rfl)
  · exact Or.inr (Or.inr rfl)

theorem program_section : (program cars).Section (·.isEntry = true) (·.isInner = true) where
  act shared place shared' next h hnext := by
    cases place with
    | funcA rest => cases rest <;> cases h
    | broadcast i =>
      simp only [program] at h
      split at h <;> cases h
      simp [Place.isEntry, Place.isInner] at hnext
    | _ => cases h <;> simp_all [Place.isEntry, Place.isInner]
  call shared place op next h := by
    cases place with
    | funcA rest =>
      cases rest <;> cases h
      simp [Place.isEntry, Place.isInner]
    | broadcast i =>
      simp only [program] at h
      split at h <;> cases h
      simp [Place.isEntry, Place.isInner]
    | _ => cases h <;> simp [Place.isEntry, Place.isInner]
  ret shared place h := by
    cases place with
    | funcA | arrived | departed => simp [Place.isEntry, Place.isInner]
    | broadcast i =>
      simp only [program] at h
      split at h <;> cases h
    | _ => cases h
  body f v := by
    rcases body_cases cars f v with h | h | h <;>
      simp [h, Place.isEntry, Place.isInner]

/-- At the other places there is no exception. -/
theorem fits_outer {s : Lane} {b : Heading → ℤ} {l : Place} (h : ¬ l.isInner = true) :
    Fits s b l ↔ Agreed s b := by
  cases l with
  | numCars | curDir | isLast | setOpen => exact absurd rfl h
  | _ => exact Iff.rfl

theorem weight_nonneg (d : Heading) (x : Option Op × Place) : 0 ≤ weight d x := by
  unfold weight
  split <;> decide

/-- A fork puts the new thread where the car is. -/
theorem forks_weight {f : ThreadFunc} {v : AnyPtr} {p : ℤ} {before : Lane} {place next : Place}
    (h : (program cars).code before place = .call (.tFork f v p) next) (d : Heading) :
    weight d (none, next) + weight d (none, (program cars).body f v) =
      weight d (some (.tFork f v p), next) := by
  cases place with
  | funcA rest =>
    cases rest <;> cases h
    rfl
  | fork e =>
    cases h
    simp [weight, car, program]
  | broadcast i =>
    simp only [program] at h
    split at h <;> cases h
  | _ => cases h

section Moves

variable {s s' : Lane} {b : Heading → ℤ} {d : Heading}

/-- `num_cars++`: where the direction is that of the car, or `open`, no car with another
heading is on the bridge. -/
theorem Holds.enter (h : Holds s b (.numCars d)) (hb : ∀ e, 0 ≤ b e) :
    Holds { s with numCars := s.numCars + 1 } (fun e => b e + if d = e then 1 else 0)
      (.curDir d) := by
  obtain ⟨hcars, ⟨hdir, -⟩, hadmit⟩ := h
  refine ⟨?_, ?_, fun e he => by_contra fun hne => ?_⟩
  · cases d <;> simp only [reduceCtorEq, if_true, if_false] <;> omega
  · have hpos := hb d
    simp only [if_true]
    omega
  · simp only [if_neg (Ne.symm hne), Int.add_zero] at he
    rcases hadmit with hopen | hsome
    · cases hopen.symm.trans (hdir e he)
    · exact hne (Option.some.inj ((hdir e he).symm.trans hsome))

/-- `cur_dir = my_dir`. -/
theorem Holds.direct (h : Holds s b (.curDir d)) (hb : ∀ e, 0 ≤ b e) :
    Holds { s with curDir := some d } b (.release d) := by
  obtain ⟨hcars, hpos, honly⟩ := h
  refine ⟨hcars, fun e he => congrArg some (honly e he).symm, fun _ hzero => hpos ?_⟩
  have hn := hb .north
  have hs := hb .south
  have hsum : b .north + b .south = 0 := hcars.symm.trans hzero
  cases d <;> omega

/-- `num_cars--`. -/
theorem Holds.leave {b' : Heading → ℤ} (h : Holds s b (.leave d))
    (hb : ∀ e, b' e + (if d = e then 1 else 0) = b e) (hb' : ∀ e, 0 ≤ b' e) :
    Holds { s with numCars := s.numCars - 1 } b' .isLast := by
  obtain ⟨hcars, hdir, -⟩ := h
  have hn := hb .north
  have hs := hb .south
  refine ⟨?_, fun e he => hdir e ?_⟩
  · change s.numCars - 1 = _
    cases d <;> simp only [reduceCtorEq, if_true, if_false] at hn hs <;> omega
  · have hbefore := hb e
    have hpos := hb' e
    split_ifs at hbefore <;> omega

/-- `if (num_cars == 0)`. -/
theorem Holds.last (h : Holds s b .isLast) (hb : ∀ e, 0 ≤ b e) :
    Holds s b (if s.numCars = 0 then .setOpen else .unlock) := by
  obtain ⟨hcars, hdir⟩ := h
  split
  · rename_i hzero
    have hn := hb .north
    have hs := hb .south
    exact ⟨hcars, fun d => by cases d <;> omega⟩
  · rename_i hne
    exact ⟨hcars, hdir, fun _ => hne⟩

/-- `while (cur_dir != my_dir && cur_dir != open)`. -/
theorem Holds.tested (h : Holds s b (.test d)) :
    Holds s b (if s.curDir ≠ some d ∧ s.curDir ≠ none then .await d else .numCars d) := by
  obtain ⟨hcars, hfits⟩ := h
  split
  · exact ⟨hcars, hfits⟩
  · rename_i hadmit
    refine ⟨hcars, hfits, ?_⟩
    by_cases hopen : s.curDir = none
    · exact Or.inl hopen
    · exact Or.inr (by_contra fun hne => hadmit ⟨hne, hopen⟩)

/-- In every statement the numbers of cars keep step with `num_cars`, and with the direction. -/
theorem act_holds {place next : Place} {b' : Heading → ℤ}
    (hcode : (program cars).code s place = .act s' next)
    (hb : ∀ d, b' d + weight d (none, place) = b d + weight d (none, next))
    (hle : ∀ d, weight d (none, place) ≤ b d) (hholds : Holds s b place) : Holds s' b' next := by
  have hb₀ : ∀ d, 0 ≤ b d := fun d => (weight_nonneg d _).trans (hle d)
  have hsame : (∀ d, weight d (none, next) = weight d (none, place)) → b' = b :=
    fun hw => totals_same hb hw
  cases place with
  | funcA rest => cases rest <;> cases hcode
  | broadcast i =>
    simp only [program] at hcode
    split at hcode <;> cases hcode
    rw [hsame fun _ => rfl]
    exact ⟨hholds.numCars, hholds.fits⟩
  | test d =>
    cases hcode
    rw [hsame fun e => by split <;> rfl]
    exact hholds.tested
  | numCars d =>
    cases hcode
    obtain rfl : b' = fun e => b e + if d = e then 1 else 0 := funext fun e => by
      have he := hb e
      simp only [weight, car, Option.some.injEq, reduceCtorEq, if_false, Int.add_zero] at he
      exact he
    exact hholds.enter hb₀
  | curDir d =>
    cases hcode
    rw [hsame fun _ => rfl]
    exact hholds.direct hb₀
  | leave d =>
    cases hcode
    have hleave : ∀ e, b' e + (if d = e then 1 else 0) = b e := by
      intro e
      have he := hb e
      simp only [weight, car, Option.some.injEq, reduceCtorEq, if_false, Int.add_zero] at he
      exact he
    refine hholds.leave hleave fun e => ?_
    have hbefore := hleave e
    have hone := hle e
    simp only [weight, car, Option.some.injEq] at hone
    omega
  | isLast =>
    cases hcode
    rw [hsame fun e => by split <;> rfl]
    exact hholds.last hb₀
  | setOpen =>
    cases hcode
    obtain ⟨hcars, hzero⟩ := hholds
    rw [hsame fun _ => rfl]
    exact ⟨hcars, fun e he => absurd (hzero e) he, fun h => absurd rfl h⟩
  | _ => cases hcode

/-- In every move they do. -/
theorem moves_holds {x y : Option Op × Place} {δ : SemId → ℤ} {b' : Heading → ℤ}
    (h : Moves (program cars) True s s' x y δ)
    (hb : ∀ d, b' d + weight d x = b d + weight d y) (hle : ∀ d, weight d x ≤ b d)
    (hholds : Holds s b x.2) : Holds s' b' y.2 := by
  cases h with
  | stay x hshared =>
    rw [hshared, totals_same hb fun _ => rfl]
    exact hholds
  | start f f' v hown hshared =>
    obtain rfl := hown trivial
    rw [hshared, totals_same hb fun _ => rfl]
    exact hholds
  | routine op before place next hcode hop hshared =>
    rw [hshared, totals_same hb fun d => ?_]
    · exact hholds
    · cases place with
      | fork e =>
        cases hcode
        exact absurd rfl (hop _ _ _)
      | funcA rest =>
        cases rest <;> cases hcode
        rfl
      | broadcast i =>
        simp only [program] at hcode
        split at hcode <;> cases hcode
        rfl
      | _ => cases hcode <;> rfl
  | call op place next hcode hshared =>
    subst hshared
    cases place with
    | funcA rest =>
      cases rest <;> cases hcode
      rw [totals_same hb fun _ => rfl]
      exact ⟨hholds.numCars, hholds.fits⟩
    | broadcast i =>
      simp only [program] at hcode
      split at hcode <;> cases hcode
      rw [totals_same hb fun _ => rfl]
      exact ⟨hholds.numCars, hholds.fits⟩
    | fork e =>
      cases hcode
      rw [totals_same hb fun d => by simp [weight, car]]
      exact ⟨hholds.numCars, hholds.fits⟩
    | _ =>
      cases hcode <;>
      · rw [totals_same hb fun _ => rfl]
        exact ⟨hholds.numCars, hholds.fits⟩
  | act place next hcode => exact act_holds hcode hb hle hholds

end Moves

/-- The library and the lock. -/
abbrev Kept (cars : List (Heading × ℤ)) : World Lane Place → Prop :=
  Secured (program cars) (·.isEntry = true) (·.isInner = true)

theorem weight_le (hk : Kept cars w) (t : Tid) (d : Heading) :
    weight d (w.pos t) ≤ w.totals weight d :=
  hk.hosted.weight_le (weight_nonneg d) (by rfl) t

theorem Crossing.step (hc : Crossing w) (hk : Kept cars w) (hown : EntersOwn tick w)
    (h : w.step g (program cars) tick = some w') : Crossing w' := by
  refine hk.tallied_step (Q := Holds) program_plain program_section h hown
    (fun s b l l' hl hl' hQ => ?_) (fun x y δ b' hplace _ hmove hb hQ => ?_)
    (fun f v p before place next hcode => forks_weight hcode) hc
  · exact ⟨hQ.numCars, (fits_outer hl').mpr ((fits_outer hl).mp hQ.fits)⟩
  · exact moves_holds hmove hb (fun d => hplace ▸ weight_le hk _ d) hQ

theorem crossing_opened (h : World.Opens (program cars) objects opened w) : Crossing w := by
  have hb : w.totals weight = fun _ => 0 := funext fun d => h.total_zero fun _ => rfl
  obtain ⟨-, -, -, hshared, hthreads⟩ := h
  unfold Crossing
  rw [hthreads, hshared, hb]
  exact ⟨rfl, fun _ h => absurd rfl h, fun h => absurd rfl h⟩

theorem crossing_of_run (h₀ : World.Opens (program cars) objects opened w₀)
    (hrun : Run (World.step g (program cars)) EntersOwn w₀ w) : Kept cars w ∧ Crossing w :=
  Secured.of_run program_plain program_section h₀ (crossing_opened h₀)
    (fun _ _ _ hk hc hown hstep => hc.step hk hown hstep) hrun

/-- What both headings weigh counts the cars on the bridge. -/
theorem totals_card : w.totals weight .north + w.totals weight .south =
    ((tids w.sys.gThreadID).filter fun t => (car (w.pos t)).isSome = true).card := by
  unfold World.totals World.total
  refine (tally_add ..).trans (tally_eq_card (fun x => (car x).isSome) fun x => ?_)
  unfold weight
  cases car x with
  | none => rfl
  | some d => cases d <;> rfl

/-- Where a switch can happen, the cars on the bridge travel in the same direction, which is
`cur_dir`, `num_cars` is their number, and `cur_dir` is `open` when there are none. -/
theorem bridge_safe (h₀ : World.Opens (program cars) objects opened w₀)
    (hrun : Run (World.step g (program cars)) EntersOwn w₀ w) (hswitch : w.sys.Switches) :
    (∀ t d, car (w.pos t) = some d → w.shared.curDir = some d) ∧
    (∃ crossing : Finset Tid, (∀ t, t ∈ crossing ↔ (car (w.pos t)).isSome = true) ∧
      w.shared.numCars = crossing.card) ∧
    (w.shared.curDir = none ↔ ∀ t, car (w.pos t) = none) := by
  obtain ⟨hk, hc⟩ := crossing_of_run h₀ hrun
  obtain ⟨hdir, hopen⟩ := (fits_outer (hk.outer hswitch _)).mp hc.fits
  have hhead : ∀ t d, car (w.pos t) = some d → w.shared.curDir = some d := by
    intro t d hcar
    have hle := weight_le hk t d
    rw [weight, if_pos hcar] at hle
    exact hdir d (by omega)
  refine ⟨hhead, ⟨_, fun t => ?_, hc.numCars.trans totals_card⟩, fun hnone t => ?_, fun hnone => ?_⟩
  · rw [Finset.mem_filter, mem_tids]
    refine ⟨fun h => h.2, fun h => ⟨?_, h⟩⟩
    by_contra hnot
    rw [World.pos, hk.hosted.calm.calling_spare hnot, hk.hosted.spare t hnot] at h
    cases h
  · refine Option.eq_none_iff_forall_ne_some.mpr fun d hcar => ?_
    cases hnone.symm.trans (hhead t d hcar)
  · by_contra hne
    have hb : w.totals weight = fun _ => 0 := funext fun d => World.total_zero fun t _ => by
      rw [weight, hnone t]
      rfl
    refine hopen hne (hc.numCars.trans ?_)
    rw [hb]
    rfl

/-- A car from the north has left `Arrive` and one from the south is about to enter. -/
theorem bridge_safe_two :
    ∃ w₀ w : World Lane Place,
      World.Opens (program [(.north, 10), (.south, 10)]) objects opened w₀ ∧
      w.threads 3 = .arrive .south ∧ car (w.pos 4) = some .north ∧
      w.shared.curDir = some .north := by
  obtain ⟨w₀, w, h₀, hrun, hgood⟩ := exists_world .statement EntersOwn
    (program [(.north, 10), (.south, 10)]) objects opened 10 (List.replicate 78 .run)
    (fun w => w.threads 3 = .arrive .south ∧ car (w.pos 4) = some .north ∧
      w.sys.blocked = false) (by decide +kernel)
  obtain ⟨hthree, hcar, hblocked⟩ := of_decide_eq_true hgood
  obtain ⟨hdir, -⟩ := bridge_safe h₀ hrun (Or.inl hblocked)
  exact ⟨w₀, w, h₀, hthree, hcar, hdir 4 .north hcar⟩

end UserThreads.Bridge
