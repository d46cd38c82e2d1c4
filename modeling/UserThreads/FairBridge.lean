import UserThreads.Bridge

/-!
The fair bridge of `TEST3C.C`. A car of `Arrive` counts itself on its side, waits
while it may not go, and is in flight from `inFlight++` to the `inFlight--` of the
thread with the body `Depart` that it forks, which takes it off its side. A car
whose opposite side is empty turns the direction: no car is then in flight against
it, because every car in flight is counted on its side.
-/
namespace UserThreads.FairBridge

open Threads Runs Tallies
open Bridge (Heading heading objects)

def opposite : Heading → Heading
  | .north => .south
  | .south => .north

structure Lane where
  numCars : ℤ
  /-- `num_cars_north` and `num_cars_south` -/
  numCarsOf : Heading → ℤ
  curDir : Option Heading
  inFlight : ℤ
  toggleDir : ℤ
  firstTime : ℤ

/-- The places in the bodies, with `my_dir`; a place stands before the statement it is named
after. -/
inductive Place
  /-- `firstTime = 0` of `funcA` -/
  | funcA
  /-- the cars that are left to fork and their priorities -/
  | forks (cars : List (Heading × ℤ))
  | arrive (d : Heading)
  | isFirst (d : Heading)
  | first (d : Heading)
  | firstDir (d : Heading)
  | join (d : Heading)
  | test (d : Heading)
  | sig (d : Heading)
  | await (d : Heading)
  | recount (d : Heading)
  | isMine (d : Heading)
  | isEmpty (d : Heading)
  /-- the change of `cur_dir` where a side is empty -/
  | turn (d : Heading)
  | curDir (d : Heading)
  | inFlight (d : Heading)
  | isThird (d : Heading)
  | toggle (d : Heading)
  | release (d : Heading)
  | fork (d : Heading)
  | arrived (d : Heading)
  | depart (d : Heading)
  | leave (d : Heading)
  | isLast (d : Heading)
  /-- the change of `cur_dir` where no car is in flight -/
  | turnBack (d : Heading)
  | untoggle (d : Heading)
  /-- `t_sig` of `Depart` -/
  | sigLeft (d : Heading)
  | part (d : Heading)
  | unlock
  | departed
deriving DecidableEq

namespace Lane

variable (g : Lane)

/-- `num_cars = ++num_cars_north`, or for the south. -/
def join (d : Heading) : Lane :=
  { g with numCars := g.numCarsOf d + 1
           numCarsOf := Function.update g.numCarsOf d (g.numCarsOf d + 1) }

/-- `num_cars = --num_cars_north`, or for the south. -/
def part (d : Heading) : Lane :=
  { g with numCars := g.numCarsOf d - 1
           numCarsOf := Function.update g.numCarsOf d (g.numCarsOf d - 1) }

end Lane

/-- The program: function 1 is `Arrive`, function 2 is `Depart`, and the others fork the cars. -/
def program (cars : List (Heading × ℤ)) : Program Lane Place where
  body f val := match f with
    | 1 => .arrive (heading val)
    | 2 => .depart (heading val)
    | _ => .funcA
  code g
    | .funcA => .act { g with firstTime := 0 } (.forks cars)
    | .forks [] => .ret
    | .forks ((d, priority) :: rest) => .call (.tFork 1 d.val priority) (.forks rest)
    | .arrive d => .call (.lockAcquire 0) (.isFirst d)
    | .isFirst d => .act g (if g.firstTime = 0 then .first d else .join d)
    | .first d => .act { g with firstTime := g.firstTime + 1 } (.firstDir d)
    | .firstDir d => .act { g with curDir := some d } (.join d)
    | .join d => .act (g.join d) (.test d)
    | .test d => .act g (if g.numCars % 2 = 0 ∨ g.curDir ≠ some d ∨ g.inFlight ≥ 3 ∨
        g.toggleDir = 1 then .sig d else .curDir d)
    | .sig d => .call (.tSig 0 .null (some 0)) (.await d)
    | .await d => .call (.tWait 0 (some 0)) (.recount d)
    | .recount d => .act { g with numCars := g.numCarsOf d } (.isMine d)
    | .isMine d => .act g (if g.curDir = some d ∧ g.toggleDir ≠ 1 then .curDir d else .isEmpty d)
    | .isEmpty d => .act g
        (if g.numCarsOf .north = 0 ∨ g.numCarsOf .south = 0 then .turn d else .test d)
    | .turn d => .act { g with curDir := g.curDir.map opposite } (.curDir d)
    | .curDir d => .act { g with curDir := some d } (.inFlight d)
    | .inFlight d => .act { g with inFlight := g.inFlight + 1 } (.isThird d)
    | .isThird d => .act g (if g.inFlight = 3 then .toggle d else .release d)
    | .toggle d => .act { g with toggleDir := 1 } (.release d)
    | .release d => .call (.lockRelease 0) (.fork d)
    | .fork d => .call (.tFork 2 d.val 10) (.arrived d)
    | .arrived _ => .ret
    | .depart d => .call (.lockAcquire 0) (.leave d)
    | .leave d => .act { g with inFlight := g.inFlight - 1 } (.isLast d)
    | .isLast d => .act g (if g.inFlight = 0 then .turnBack d else .sigLeft d)
    | .turnBack d => match g.curDir with
      | some e => .act { g with curDir := some (opposite e) } (.untoggle d)
      | none => .act g (.sigLeft d)
    | .untoggle d => .act { g with toggleDir := 0 } (.sigLeft d)
    | .sigLeft d => .call (.tSig 0 .null (some 0)) (.part d)
    | .part d => .act (g.part d) .unlock
    | .unlock => .call (.lockRelease 0) .departed
    | .departed => .ret

/-- The values of the shared variables when the program is loaded. -/
def opened : Lane where
  numCars := 0
  numCarsOf := fun _ => 0
  curDir := none
  inFlight := 0
  toggleDir := 0
  firstTime := 0

/-- The car in flight that the thread is: past `inFlight++` of `Arrive`, or with the body
`Depart` and not past `inFlight--`. -/
def flying : Option Op × Place → Option Heading
  | (_, .isThird d) | (_, .toggle d) | (_, .release d) | (_, .fork d) => some d
  | (_, .depart d) | (_, .leave d) => some d
  | (op, .arrived d) => if op = some (.tFork 2 d.val 10) then some d else none
  | _ => none

/-- The car that is counted on its side, which the thread is. -/
def counted : Option Op × Place → Option Heading
  | (_, .test d) | (_, .sig d) | (_, .await d) | (_, .recount d) | (_, .isMine d) => some d
  | (_, .isEmpty d) | (_, .turn d) | (_, .curDir d) | (_, .inFlight d) => some d
  | (_, .isLast d) | (_, .turnBack d) | (_, .untoggle d) | (_, .sigLeft d) => some d
  | (_, .part d) => some d
  | x => flying x

/-- The places that are reached only from the return of `lock_acquire` or `t_wait`, and those
that are reached only from these. -/
def Place.isEntry : Place → Bool
  | .isFirst _ | .recount _ | .leave _ => true
  | _ => false

def Place.isInner : Place → Bool
  | .first _ | .firstDir _ | .join _ | .test _ | .isMine _ | .isEmpty _ => true
  | .turn _ | .curDir _ | .inFlight _ | .isLast _ | .turnBack _ => true
  | _ => false

/-- What is counted: the cars in flight with a heading, and those on a side. -/
inductive Tallied
  | flying (d : Heading)
  | counted (d : Heading)

def weight : Tallied → Option Op × Place → ℤ
  | .flying d, x => if flying x = some d then 1 else 0
  | .counted d, x => if counted x = some d then 1 else 0

/-- The direction is that of the cars in flight, and before the first car there are none. -/
def Agreed (g : Lane) (b : Tallied → ℤ) : Prop :=
  (∀ d, b (.flying d) ≠ 0 → g.curDir = some d) ∧ (g.firstTime = 0 → ∀ d, g.numCarsOf d = 0)

/-- The shared variables and the numbers of cars when the running thread is at the place. -/
def Fits (g : Lane) (b : Tallied → ℤ) : Place → Prop
  | .first _ => Agreed g b ∧ g.firstTime = 0
  | .firstDir _ => (∀ d, g.numCarsOf d = 0) ∧ g.firstTime ≠ 0
  | .join _ => Agreed g b ∧ g.firstTime ≠ 0
  | .turn d => Agreed g b ∧ g.numCarsOf (opposite d) = 0
  | .curDir d => (∀ e, b (.flying e) ≠ 0 → e = d) ∧ (g.firstTime = 0 → ∀ e, g.numCarsOf e = 0)
  | .inFlight d => Agreed g b ∧ g.curDir = some d
  | .turnBack _ => Agreed g b ∧ g.inFlight = 0
  | _ => Agreed g b

/-- What holds of the shared variables and the numbers of cars. -/
structure Holds (g : Lane) (b : Tallied → ℤ) (place : Place) : Prop where
  inFlight : g.inFlight = b (.flying .north) + b (.flying .south)
  sides : ∀ d, g.numCarsOf d = b (.counted d)
  fits : Fits g b place

def Ordered (w : World Lane Place) : Prop :=
  Holds w.shared (w.totals weight) (w.threads w.sys.currentRunningThread)

variable {cars : List (Heading × ℤ)} {g : Grain} {w w' w₀ : World Lane Place} {tick : Tick}

theorem program_plain : (program cars).Plain := by
  intro shared place op next h
  cases place with
  | forks rest =>
    cases rest <;> cases h
    rfl
  | turnBack d =>
    simp only [program] at h
    split at h <;> cases h
  | _ => cases h; try rfl

theorem body_cases (cars : List (Heading × ℤ)) (f : ThreadFunc) (v : AnyPtr) :
    (program cars).body f v = .arrive (heading v) ∨
      (program cars).body f v = .depart (heading v) ∨ (program cars).body f v = .funcA := by
  unfold program
  dsimp only
  split
  · exact Or.inl rfl
  · exact Or.inr (Or.inl rfl)
  · exact Or.inr (Or.inr rfl)

theorem program_section : (program cars).Section (·.isEntry = true) (·.isInner = true) where
  act shared place shared' next h hnext := by
    cases place with
    | forks rest => cases rest <;> cases h
    | turnBack d => exact Or.inr rfl
    | isThird d =>
      cases h
      split at hnext <;> simp [Place.isEntry, Place.isInner] at hnext
    | _ => cases h <;> simp_all [Place.isEntry, Place.isInner]
  call shared place op next h := by
    cases place with
    | forks rest =>
      cases rest <;> cases h
      simp [Place.isEntry, Place.isInner]
    | turnBack d =>
      simp only [program] at h
      split at h <;> cases h
    | _ => cases h <;> simp [Place.isEntry, Place.isInner]
  ret shared place h := by
    cases place with
    | forks | arrived | departed => simp [Place.isEntry, Place.isInner]
    | turnBack d =>
      simp only [program] at h
      split at h <;> cases h
    | _ => cases h
  body f v := by
    rcases body_cases cars f v with h | h | h <;>
      simp [h, Place.isEntry, Place.isInner]

/-- At the other places there is no exception. -/
theorem fits_outer {s : Lane} {b : Tallied → ℤ} {l : Place} (h : ¬ l.isInner = true) :
    Fits s b l ↔ Agreed s b := by
  cases l with
  | first | firstDir | join | test | isMine | isEmpty | turn | curDir | inFlight | isLast
  | turnBack => exact absurd rfl h
  | _ => exact Iff.rfl

theorem weight_nonneg (i : Tallied) (x : Option Op × Place) : 0 ≤ weight i x := by
  cases i with
  | flying d | counted d =>
    unfold weight
    dsimp only
    split <;> decide

/-- A car in flight is counted on its side. -/
theorem flying_le (d : Heading) (x : Option Op × Place) :
    weight (.flying d) x ≤ weight (.counted d) x := by
  obtain ⟨op, place⟩ := x
  cases place with
  | isThird | toggle | release | fork | depart | leave | arrived => exact le_rfl
  | _ => exact weight_nonneg (.counted d) _

/-- A fork puts the new thread where the car is. -/
theorem forks_weight {f : ThreadFunc} {v : AnyPtr} {p : ℤ} {before : Lane} {place next : Place}
    (h : (program cars).code before place = .call (.tFork f v p) next) (i : Tallied) :
    weight i (none, next) + weight i (none, (program cars).body f v) =
      weight i (some (.tFork f v p), next) := by
  cases place with
  | forks rest =>
    cases rest <;> cases h
    cases i <;> rfl
  | fork e =>
    cases h
    cases i <;> simp [weight, counted, flying, program]
  | turnBack d =>
    simp only [program] at h
    split at h <;> cases h
  | _ => cases h

section Moves

variable {s s' : Lane} {b b' : Tallied → ℤ} {d : Heading}

theorem Agreed.keep (h : Agreed s b) (hdir : s'.curDir = s.curDir)
    (hfirst : s'.firstTime = s.firstTime) (hsides : s'.numCarsOf = s.numCarsOf) :
    Agreed s' b := by
  unfold Agreed
  rw [hdir, hfirst, hsides]
  exact h

theorem eq_opposite {e : Heading} (h : e ≠ d) : e = opposite d := by
  cases d <;> cases e <;> first | rfl | exact absurd rfl h

/-- `if (firstTime == 0)`. -/
theorem Holds.isFirst (h : Holds s b (.isFirst d)) :
    Holds s b (if s.firstTime = 0 then .first d else .join d) := by
  obtain ⟨hflight, hsides, hfits⟩ := h
  split <;> rename_i hfirst <;> exact ⟨hflight, hsides, hfits, hfirst⟩

/-- `firstTime++`. -/
theorem Holds.first (h : Holds s b (.first d)) :
    Holds { s with firstTime := s.firstTime + 1 } b (.firstDir d) := by
  obtain ⟨hflight, hsides, ⟨-, hnone⟩, hfirst⟩ := h
  refine ⟨hflight, hsides, hnone hfirst, ?_⟩
  change s.firstTime + 1 ≠ 0
  omega

/-- `cur_dir = my_dir` by the first car: no car is in flight because none is counted. -/
theorem Holds.firstDir (h : Holds s b (.firstDir d)) (hb : ∀ i, 0 ≤ b i)
    (hle : ∀ e, b (.flying e) ≤ b (.counted e)) :
    Holds { s with curDir := some d } b (.join d) := by
  obtain ⟨hflight, hsides, hnone, hfirst⟩ := h
  refine ⟨hflight, hsides, ⟨fun e he => absurd ?_ he, fun _ => hnone⟩, hfirst⟩
  have hside := hsides e
  have hzero := hnone e
  have hcounted := hle e
  have hpos := hb (.flying e)
  omega

/-- `num_cars = ++num_cars_north`, or for the south. -/
theorem Holds.join (h : Holds s b (.join d)) (hflying : ∀ e, b' (.flying e) = b (.flying e))
    (hcounted : ∀ e, b' (.counted e) = b (.counted e) + if d = e then 1 else 0) :
    Holds (s.join d) b' (.test d) := by
  obtain ⟨hflight, hsides, ⟨hdir, -⟩, hfirst⟩ := h
  refine ⟨?_, fun e => ?_, fun e he => hdir e ?_, fun hzero => absurd hzero hfirst⟩
  · rw [hflying, hflying]
    exact hflight
  · rw [hcounted, ← hsides]
    by_cases he : d = e
    · subst he
      rw [if_pos rfl]
      exact Function.update_self ..
    · rw [if_neg he, Int.add_zero]
      exact Function.update_of_ne (Ne.symm he) ..
  · rwa [← hflying]

/-- The loop is left by its condition. -/
theorem Holds.test (h : Holds s b (.test d)) :
    Holds s b (if s.numCars % 2 = 0 ∨ s.curDir ≠ some d ∨ s.inFlight ≥ 3 ∨ s.toggleDir = 1
      then .sig d else .curDir d) := by
  obtain ⟨hflight, hsides, hfits⟩ := h
  split
  · exact ⟨hflight, hsides, hfits⟩
  · rename_i hgo
    have hmine : s.curDir = some d := by_contra fun hne => hgo (Or.inr (Or.inl hne))
    exact ⟨hflight, hsides, fun e he => Option.some.inj ((hfits.1 e he).symm.trans hmine), hfits.2⟩

/-- The loop is left when the direction is that of the car. -/
theorem Holds.isMine (h : Holds s b (.isMine d)) :
    Holds s b (if s.curDir = some d ∧ s.toggleDir ≠ 1 then .curDir d else .isEmpty d) := by
  obtain ⟨hflight, hsides, hfits⟩ := h
  split
  · rename_i hmine
    exact ⟨hflight, hsides, fun e he => Option.some.inj ((hfits.1 e he).symm.trans hmine.1),
      hfits.2⟩
  · exact ⟨hflight, hsides, hfits⟩

/-- The loop is left when a side is empty, and it is not that of the car. -/
theorem Holds.isEmpty (h : Holds s b (.isEmpty d)) (hd : 1 ≤ b (.counted d)) :
    Holds s b (if s.numCarsOf .north = 0 ∨ s.numCarsOf .south = 0 then .turn d else .test d) := by
  obtain ⟨hflight, hsides, hfits⟩ := h
  split
  · rename_i hempty
    refine ⟨hflight, hsides, hfits, ?_⟩
    have hside := hsides d
    cases d with
    | north => exact hempty.resolve_left (by omega)
    | south => exact hempty.resolve_right (by omega)
  · exact ⟨hflight, hsides, hfits⟩

/-- The cars in flight are none of the opposite side, whatever `cur_dir` then is. -/
theorem Holds.turn (h : Holds s b (.turn d)) (hb : ∀ i, 0 ≤ b i)
    (hle : ∀ e, b (.flying e) ≤ b (.counted e)) :
    Holds { s with curDir := s.curDir.map opposite } b (.curDir d) := by
  obtain ⟨hflight, hsides, ⟨-, hnone⟩, hempty⟩ := h
  refine ⟨hflight, hsides, fun e he => by_contra fun hne => he ?_, hnone⟩
  obtain rfl := eq_opposite hne
  have hside := hsides (opposite d)
  have hcounted := hle (opposite d)
  have hpos := hb (.flying (opposite d))
  omega

/-- `cur_dir = my_dir`. -/
theorem Holds.curDir (h : Holds s b (.curDir d)) :
    Holds { s with curDir := some d } b (.inFlight d) := by
  obtain ⟨hflight, hsides, honly, hnone⟩ := h
  exact ⟨hflight, hsides, ⟨fun e he => congrArg some (honly e he).symm, hnone⟩, rfl⟩

/-- `inFlight++`. -/
theorem Holds.takeOff (h : Holds s b (.inFlight d))
    (hflying : ∀ e, b' (.flying e) = b (.flying e) + if d = e then 1 else 0)
    (hcounted : ∀ e, b' (.counted e) = b (.counted e)) :
    Holds { s with inFlight := s.inFlight + 1 } b' (.isThird d) := by
  obtain ⟨hflight, hsides, ⟨hdir, hnone⟩, hmine⟩ := h
  refine ⟨?_, fun e => ?_, fun e he => ?_, hnone⟩
  · change s.inFlight + 1 = _
    rw [hflying, hflying]
    cases d <;> simp only [reduceCtorEq, if_true, if_false] <;> omega
  · rw [hcounted]
    exact hsides e
  · by_cases hd : d = e
    · exact hd ▸ hmine
    · rw [hflying, if_neg hd, Int.add_zero] at he
      exact hdir e he

/-- `inFlight--`. -/
theorem Holds.land (h : Holds s b (.leave d)) (hb' : ∀ i, 0 ≤ b' i)
    (hflying : ∀ e, b' (.flying e) + (if d = e then 1 else 0) = b (.flying e))
    (hcounted : ∀ e, b' (.counted e) = b (.counted e)) :
    Holds { s with inFlight := s.inFlight - 1 } b' (.isLast d) := by
  obtain ⟨hflight, hsides, hdir, hnone⟩ := h
  refine ⟨?_, fun e => ?_, fun e he => hdir e ?_, hnone⟩
  · have hn := hflying .north
    have hs := hflying .south
    change s.inFlight - 1 = _
    cases d <;> simp only [reduceCtorEq, if_true, if_false] at hn hs <;> omega
  · rw [hcounted]
    exact hsides e
  · have hbefore := hflying e
    have hpos := hb' (.flying e)
    split_ifs at hbefore <;> omega

/-- `if (inFlight == 0)`. -/
theorem Holds.isLast (h : Holds s b (.isLast d)) :
    Holds s b (if s.inFlight = 0 then .turnBack d else .sigLeft d) := by
  obtain ⟨hflight, hsides, hfits⟩ := h
  split
  · rename_i hzero
    exact ⟨hflight, hsides, hfits, hzero⟩
  · exact ⟨hflight, hsides, hfits⟩

/-- The last car in flight turns the direction. -/
theorem Holds.turnBack (h : Holds s b (.turnBack d)) (hb : ∀ i, 0 ≤ b i)
    (dir : Option Heading) : Holds { s with curDir := dir } b (.untoggle d) := by
  obtain ⟨hflight, hsides, ⟨-, hnone⟩, hzero⟩ := h
  refine ⟨hflight, hsides, fun e he => absurd ?_ he, hnone⟩
  have hn := hb (.flying .north)
  have hs := hb (.flying .south)
  cases e <;> omega

/-- `num_cars = --num_cars_north`, or for the south. -/
theorem Holds.part (h : Holds s b (.part d)) (hb' : ∀ i, 0 ≤ b' i)
    (hflying : ∀ e, b' (.flying e) = b (.flying e))
    (hcounted : ∀ e, b' (.counted e) + (if d = e then 1 else 0) = b (.counted e)) :
    Holds (s.part d) b' .unlock := by
  obtain ⟨hflight, hsides, hdir, hnone⟩ := h
  have hd := hcounted d
  rw [if_pos rfl] at hd
  refine ⟨?_, fun e => ?_, fun e he => hdir e ?_, fun hfirst => ?_⟩
  · rw [hflying, hflying]
    exact hflight
  · have he := hcounted e
    have hside := hsides e
    by_cases hde : d = e
    · subst hde
      refine (Function.update_self ..).trans ?_
      omega
    · rw [if_neg hde] at he
      refine (Function.update_of_ne (Ne.symm hde) ..).trans ?_
      omega
  · rwa [← hflying]
  · have hside := hsides d
    have hzero := hnone hfirst d
    have hpos := hb' (.counted d)
    omega

/-- In every statement the numbers of cars keep step with the shared variables. -/
theorem act_holds {place next : Place} (hcode : (program cars).code s place = .act s' next)
    (hb : ∀ i, b' i + weight i (none, place) = b i + weight i (none, next))
    (hle : ∀ i, weight i (none, place) ≤ b i) (hside : ∀ e, b (.flying e) ≤ b (.counted e))
    (hnew : place = .funcA → ∀ e, s.numCarsOf e = 0) (hholds : Holds s b place) :
    Holds s' b' next := by
  have hb₀ : ∀ i, 0 ≤ b i := fun i => (weight_nonneg i _).trans (hle i)
  have hb₁ : ∀ i, 0 ≤ b' i := by
    intro i
    have hi := hb i
    have hone := hle i
    have hpos := weight_nonneg i (none, next)
    omega
  have hsame : (∀ i, weight i (none, next) = weight i (none, place)) → b' = b :=
    fun hw => totals_same hb hw
  have hflying : ∀ e, b' (.flying e) + (if flying (none, place) = some e then 1 else 0) =
      b (.flying e) + if flying (none, next) = some e then 1 else 0 := fun e => hb (.flying e)
  have hcounted : ∀ e, b' (.counted e) + (if counted (none, place) = some e then 1 else 0) =
      b (.counted e) + if counted (none, next) = some e then 1 else 0 := fun e => hb (.counted e)
  cases place with
  | forks rest => cases rest <;> cases hcode
  | funcA =>
    cases hcode
    rw [hsame fun i => by cases i <;> rfl]
    exact ⟨hholds.inFlight, hholds.sides, hholds.fits.1, fun _ => hnew rfl⟩
  | isFirst d =>
    cases hcode
    rw [hsame fun i => by cases i <;> split <;> rfl]
    exact hholds.isFirst
  | first d =>
    cases hcode
    rw [hsame fun i => by cases i <;> rfl]
    exact hholds.first
  | firstDir d =>
    cases hcode
    rw [hsame fun i => by cases i <;> rfl]
    exact hholds.firstDir hb₀ hside
  | join d =>
    cases hcode
    simp only [flying, counted, Option.some.injEq, reduceCtorEq, if_false, Int.add_zero]
      at hflying hcounted
    exact hholds.join hflying hcounted
  | test d =>
    cases hcode
    rw [hsame fun i => by cases i <;> split <;> rfl]
    exact hholds.test
  | recount d =>
    cases hcode
    rw [hsame fun i => by cases i <;> rfl]
    exact ⟨hholds.inFlight, hholds.sides, hholds.fits.keep rfl rfl rfl⟩
  | isMine d =>
    cases hcode
    rw [hsame fun i => by cases i <;> split <;> rfl]
    exact hholds.isMine
  | isEmpty d =>
    cases hcode
    rw [hsame fun i => by cases i <;> split <;> rfl]
    refine hholds.isEmpty (le_trans ?_ (hle (.counted d)))
    simp [weight, counted]
  | turn d =>
    cases hcode
    rw [hsame fun i => by cases i <;> rfl]
    exact hholds.turn hb₀ hside
  | curDir d =>
    cases hcode
    rw [hsame fun i => by cases i <;> rfl]
    exact hholds.curDir
  | inFlight d =>
    cases hcode
    simp only [flying, counted, Option.some.injEq, reduceCtorEq, if_false, Int.add_zero]
      at hflying hcounted
    exact hholds.takeOff hflying fun e => add_right_cancel (hcounted e)
  | isThird d =>
    cases hcode
    rw [hsame fun i => by cases i <;> split <;> rfl]
    split <;> exact ⟨hholds.inFlight, hholds.sides, hholds.fits⟩
  | toggle d =>
    cases hcode
    rw [hsame fun i => by cases i <;> rfl]
    exact ⟨hholds.inFlight, hholds.sides, hholds.fits.keep rfl rfl rfl⟩
  | leave d =>
    cases hcode
    simp only [flying, counted, Option.some.injEq, reduceCtorEq, if_false, Int.add_zero]
      at hflying hcounted
    exact hholds.land hb₁ hflying fun e => add_right_cancel (hcounted e)
  | isLast d =>
    cases hcode
    rw [hsame fun i => by cases i <;> split <;> rfl]
    exact hholds.isLast
  | turnBack d =>
    simp only [program] at hcode
    split at hcode <;> cases hcode <;> rw [hsame fun i => by cases i <;> rfl]
    · exact hholds.turnBack hb₀ _
    · exact ⟨hholds.inFlight, hholds.sides, hholds.fits.1⟩
  | untoggle d =>
    cases hcode
    rw [hsame fun i => by cases i <;> rfl]
    exact ⟨hholds.inFlight, hholds.sides, hholds.fits.keep rfl rfl rfl⟩
  | part d =>
    cases hcode
    simp only [flying, counted, Option.some.injEq, reduceCtorEq, if_false, Int.add_zero]
      at hflying hcounted
    exact hholds.part hb₁ hflying hcounted
  | _ => cases hcode

/-- In every move they do. -/
theorem moves_holds {x y : Option Op × Place} {δ : SemId → ℤ}
    (h : Moves (program cars) True s s' x y δ)
    (hb : ∀ i, b' i + weight i x = b i + weight i y) (hle : ∀ i, weight i x ≤ b i)
    (hside : ∀ e, b (.flying e) ≤ b (.counted e))
    (hnew : x.2 = .funcA → x ≠ y → ∀ e, s.numCarsOf e = 0) (hholds : Holds s b x.2) :
    Holds s' b' y.2 := by
  cases h with
  | stay x hshared =>
    rw [hshared, totals_same hb fun _ => rfl]
    exact hholds
  | start f f' v hown hshared =>
    obtain rfl := hown trivial
    rw [hshared, totals_same hb fun _ => rfl]
    exact hholds
  | routine op before place next hcode hop hshared =>
    rw [hshared, totals_same hb fun i => ?_]
    · exact hholds
    · cases place with
      | fork e =>
        cases hcode
        exact absurd rfl (hop _ _ _)
      | forks rest =>
        cases rest <;> cases hcode
        cases i <;> rfl
      | turnBack d =>
        simp only [program] at hcode
        split at hcode <;> cases hcode
      | _ => cases hcode <;> cases i <;> rfl
  | call op place next hcode hshared =>
    subst hshared
    cases place with
    | forks rest =>
      cases rest <;> cases hcode
      rw [totals_same hb fun i => by cases i <;> rfl]
      exact ⟨hholds.inFlight, hholds.sides, hholds.fits⟩
    | turnBack d =>
      simp only [program] at hcode
      split at hcode <;> cases hcode
    | fork e =>
      cases hcode
      rw [totals_same hb fun i => by cases i <;> simp [weight, counted, flying]]
      exact ⟨hholds.inFlight, hholds.sides, hholds.fits⟩
    | _ =>
      cases hcode <;>
      · rw [totals_same hb fun i => by cases i <;> rfl]
        exact ⟨hholds.inFlight, hholds.sides, hholds.fits⟩
  | act place next hcode =>
    refine act_holds hcode hb hle hside (fun h => hnew h ?_) hholds
    subst h
    cases hcode
    simp

end Moves

/-- The library and the lock. -/
abbrev Kept (cars : List (Heading × ℤ)) : World Lane Place → Prop :=
  Secured (program cars) (·.isEntry = true) (·.isInner = true)

/-- Before `firstTime = 0` the first thread is the only one. -/
def Alone (w : World Lane Place) : Prop :=
  ∀ t, w.sys.Forked t → w.threads t = .funcA → w.sys.gThreadID = 1

/-- No statement and no call leads to the beginning of `funcA`. -/
theorem code_next {shared : Lane} {place : Place} :
    (∀ shared', (program cars).code shared place ≠ .act shared' .funcA) ∧
      ∀ op, (program cars).code shared place ≠ .call op .funcA := by
  cases place with
  | forks rest => cases rest <;> simp [program]
  | turnBack d =>
    simp only [program]
    split <;> simp
  | isFirst | test | isMine | isEmpty | isThird | isLast =>
    simp only [program]
    split <;> simp
  | _ => simp [program]

/-- No thread is forked with `funcA`. -/
theorem code_fork {shared : Lane} {place next : Place} {f : ThreadFunc} {v : AnyPtr} {p : ℤ}
    (h : (program cars).code shared place = .call (.tFork f v p) next) :
    (program cars).body f v ≠ .funcA := by
  cases place with
  | forks rest =>
    cases rest <;> cases h
    simp [program]
  | fork d =>
    cases h
    simp [program]
  | turnBack d =>
    simp only [program] at h
    split at h <;> cases h
  | _ => cases h

theorem moves_funcA {s s' : Lane} {x y : Option Op × Place} {δ : SemId → ℤ}
    (h : Moves (program cars) True s s' x y δ) (hy : y.2 = .funcA) : x.2 = .funcA := by
  cases h with
  | stay => exact hy
  | start f f' v hown =>
    obtain rfl := hown trivial
    exact hy
  | act place next hcode =>
    obtain rfl : next = .funcA := hy
    exact absurd hcode (code_next.1 _)
  | call op place next hcode | routine op before place next hcode =>
    obtain rfl : next = .funcA := hy
    exact absurd hcode (code_next.2 _)

theorem Alone.turn {c : Tid} (h : Alone w) (hturn : Turn (program cars) True w w' c) :
    Alone w' := by
  intro t hforked ht
  change (w'.pos t).2 = .funcA at ht
  cases hturn with
  | moves x y δ hplace hpos hid hpermits hcur hmove =>
    rw [State.Forked, hid] at hforked
    rw [hpos] at ht
    rw [hid]
    refine h t hforked ?_
    change (w.pos t).2 = .funcA
    by_cases htc : t = c
    · subst htc
      rw [Function.update_self] at ht
      exact hplace ▸ moves_funcA hmove ht
    · rwa [Function.update_of_ne htc] at ht
  | fork f v p before place next hplace hcode hshared hpos hcur hid =>
    obtain ⟨hpos₁, hle⟩ := hforked
    rw [hid] at hle
    rw [hpos] at ht
    by_cases hnew : t = w.sys.gThreadID + 1
    · rw [hnew, Function.update_self] at ht
      exact absurd ht (code_fork hcode)
    · rw [Function.update_of_ne hnew] at ht
      by_cases htc : t = c
      · rw [htc, Function.update_self] at ht
        obtain rfl : next = .funcA := ht
        exact absurd hcode (code_next.2 _)
      · rw [Function.update_of_ne htc] at ht
        have hold : w.sys.Forked t := ⟨hpos₁, Int.lt_add_one_iff.mp (lt_of_le_of_ne hle hnew)⟩
        have hone := h t hold ht
        obtain ⟨hcpos, hcle⟩ := hcur
        obtain ⟨-, htle⟩ := hold
        rw [hone] at hcle htle
        exact absurd ((le_antisymm htle hpos₁).trans (le_antisymm hcle hcpos).symm) htc

/-- When the first thread sets `firstTime`, no car is counted. -/
theorem Alone.sides (h : Alone w) (hho : Ordered w) (hcur : w.sys.Forked w.sys.currentRunningThread)
    (hplace : w.threads w.sys.currentRunningThread = .funcA) (d : Heading) :
    w.shared.numCarsOf d = 0 := by
  have hone := h _ hcur hplace
  rw [hho.sides d]
  refine World.total_zero fun t ht => ?_
  obtain ⟨hpos, hle⟩ := ht
  rw [hone] at hle
  obtain ⟨hcpos, hcle⟩ := hcur
  rw [hone] at hcle
  rw [World.pos, (le_antisymm hle hpos).trans (le_antisymm hcle hcpos).symm, hplace]
  rfl

theorem weight_le (hk : Kept cars w) (t : Tid) (i : Tallied) :
    weight i (w.pos t) ≤ w.totals weight i :=
  hk.hosted.weight_le (weight_nonneg i) (by cases i <;> rfl) t

theorem Ordered.step (ho : Ordered w) (hk : Kept cars w) (ha : Alone w)
    (hown : EntersOwn tick w) (h : w.step g (program cars) tick = some w') : Ordered w' := by
  refine hk.tallied_step (Q := Holds) program_plain program_section h hown
    (fun s b l l' hl hl' hQ => ?_) (fun x y δ b' hplace hcur hmove hb hQ => ?_)
    (fun f v p before place next hcode => forks_weight hcode) ho
  · exact ⟨hQ.inFlight, hQ.sides, (fits_outer hl').mpr ((fits_outer hl).mp hQ.fits)⟩
  · refine moves_holds hmove hb (fun i => hplace ▸ weight_le hk _ i)
      (fun e => World.total_le (flying_le e)) (fun hx hne => ?_) hQ
    exact ha.sides ho (hcur.resolve_left hne) ((congrArg Prod.snd hplace).trans hx)

theorem ordered_opened (h : World.Opens (program cars) objects opened w) : Ordered w := by
  have hb : w.totals weight = fun _ => 0 :=
    funext fun i => h.total_zero fun _ => by cases i <;> rfl
  obtain ⟨-, -, -, hshared, hthreads⟩ := h
  unfold Ordered
  rw [hthreads, hshared, hb]
  exact ⟨rfl, fun _ => rfl, fun _ h => absurd rfl h, fun _ _ => rfl⟩

theorem ordered_of_run (h₀ : World.Opens (program cars) objects opened w₀)
    (hrun : Run (World.step g (program cars)) EntersOwn w₀ w) :
    Kept cars w ∧ Ordered w ∧ Alone w := by
  obtain ⟨f, v, p, hbegun⟩ := h₀.initial.begun
  refine Secured.of_run (I := fun w => Ordered w ∧ Alone w) program_plain program_section h₀
    ⟨ordered_opened h₀, fun _ _ _ => hbegun.gThreadID⟩ (fun tick w w' hk hI hown hstep => ?_) hrun
  have hturn : Turn (program cars) True w w' w.sys.currentRunningThread :=
    (World.goes hstep).turn hk.hosted program_plain fun _ => hown
  exact ⟨hI.1.step hk hI.2 hown hstep, hI.2.turn hturn⟩

/-- Where a switch can happen, the cars in flight travel in the same direction. -/
theorem fair_bridge_safe (h₀ : World.Opens (program cars) objects opened w₀)
    (hrun : Run (World.step g (program cars)) EntersOwn w₀ w) (hswitch : w.sys.Switches)
    {t u : Tid} {d e : Heading} (ht : flying (w.pos t) = some d)
    (hu : flying (w.pos u) = some e) : d = e := by
  obtain ⟨hk, ho, -⟩ := ordered_of_run h₀ hrun
  obtain ⟨hdir, -⟩ := (fits_outer (hk.outer hswitch _)).mp ho.fits
  have hhead : ∀ t d, flying (w.pos t) = some d → w.shared.curDir = some d := by
    intro t d hfly
    have hle := weight_le hk t (.flying d)
    rw [weight, if_pos hfly] at hle
    exact hdir d (by omega)
  exact Option.some.inj ((hhead t d ht).symm.trans (hhead u e hu))

/-- Two of three cars are in flight, and the third waits. -/
theorem fair_bridge_safe_two :
    ∃ w₀ w : World Lane Place,
      World.Opens (program [(.north, 127), (.north, 127), (.north, 127)]) objects opened w₀ ∧
      flying (w.pos 5) = some .north ∧ (flying (w.pos 6)).isSome = true ∧
      ∀ d, flying (w.pos 6) = some d → d = .north := by
  obtain ⟨w₀, w, h₀, hrun, hgood⟩ := exists_world .statement EntersOwn
    (program [(.north, 127), (.north, 127), (.north, 127)]) objects opened 127
    (List.replicate 180 .run)
    (fun w => flying (w.pos 5) = some .north ∧ (flying (w.pos 6)).isSome = true ∧
      w.sys.blocked = false) (by decide +kernel)
  obtain ⟨hfive, hsix, hblocked⟩ := of_decide_eq_true hgood
  exact ⟨w₀, w, h₀, hfive, hsix, fun d hd =>
    fair_bridge_safe h₀ hrun (Or.inl hblocked) hd hfive⟩

end UserThreads.FairBridge
