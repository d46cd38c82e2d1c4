import UserThreads.FairBridge

/-!
The batches of `TEST3C.C`. Three cars in flight turn `toggleDir` on, and no car
passes the condition of the loop or its first exit before the last of them has
landed. The second exit, for a car whose opposite side is empty, has no such test,
so more than three cars are in flight only while nobody waited on the other side
when the fourth and the later ones took off.
-/
namespace UserThreads.FairBridge

open Threads Runs Tallies
open Bridge (Heading heading objects)

/-- The places of a section that goes on to the assignments of `toggleDir`. -/
def Place.isMasked : Place → Bool
  | .isThird _ | .toggle _ | .untoggle _ => true
  | place => place.isInner

/-- A batch that is full is closed. -/
def Closed (g : Lane) : Prop := 3 ≤ g.inFlight → g.toggleDir = 1

/-- The car may take off: the batch is not full, or nobody is counted on the other side. -/
def MayFly (g : Lane) (d : Heading) : Prop := g.inFlight < 3 ∨ g.numCarsOf (opposite d) = 0

/-- The shared variables when the running thread is at the place. -/
def Batch (g : Lane) : Place → Prop
  | .curDir d | .inFlight d => Closed g ∧ MayFly g d
  | .isThird _ => 3 < g.inFlight → g.toggleDir = 1
  | .toggle _ => True
  | .turnBack _ | .untoggle _ => g.inFlight = 0
  | _ => Closed g

variable {cars : List (Heading × ℤ)} {g : Grain} {w w' w₀ : World Lane Place} {tick : Tick}
  {s s' : Lane} {d : Heading}

theorem program_masked : (program cars).Section (·.isEntry = true) (·.isMasked = true) where
  act shared place shared' next h hnext := by
    cases place with
    | forks rest => cases rest <;> cases h
    | turnBack d => exact Or.inr rfl
    | _ => cases h <;> simp_all [Place.isEntry, Place.isInner, Place.isMasked]
  call shared place op next h := by
    cases place with
    | forks rest =>
      cases rest <;> cases h
      simp [Place.isEntry, Place.isInner, Place.isMasked]
    | turnBack d =>
      simp only [program] at h
      split at h <;> cases h
    | _ => cases h <;> simp [Place.isEntry, Place.isInner, Place.isMasked]
  ret shared place h := by
    cases place with
    | forks | arrived | departed => simp [Place.isEntry, Place.isInner, Place.isMasked]
    | turnBack d =>
      simp only [program] at h
      split at h <;> cases h
    | _ => cases h
  body f v := by
    rcases body_cases cars f v with h | h | h <;>
      simp [h, Place.isEntry, Place.isInner, Place.isMasked]

/-- At the other places there is no exception. -/
theorem batch_outer {l : Place} (h : ¬ l.isMasked = true) : Batch s l ↔ Closed s := by
  cases l with
  | curDir | inFlight | isThird | toggle | turnBack | untoggle => exact absurd rfl h
  | _ => exact Iff.rfl

/-- Less than three cars are in flight when the batch is not closed. -/
theorem Closed.open (h : Closed s) (htoggle : s.toggleDir ≠ 1) : s.inFlight < 3 := by
  by_contra hfull
  exact htoggle (h (not_lt.mp hfull))

theorem Closed.keep (h : Closed s) (hflight : s'.inFlight = s.inFlight)
    (htoggle : s'.toggleDir = s.toggleDir) : Closed s' := by
  unfold Closed
  rw [hflight, htoggle]
  exact h

/-- Every statement keeps a full batch closed; `hempty` is what the second exit of the loop
has found. -/
theorem act_batch {place next : Place} (hcode : (program cars).code s place = .act s' next)
    (hempty : ∀ d, place = .turn d → s.numCarsOf (opposite d) = 0) (h : Batch s place) :
    Batch s' next := by
  cases place with
  | forks rest => cases rest <;> cases hcode
  | test d =>
    cases hcode
    split
    · exact h
    · rename_i hgo
      refine ⟨h, Or.inl (lt_of_not_ge fun hfull => hgo ?_)⟩
      exact Or.inr (Or.inr (Or.inl hfull))
  | isMine d =>
    cases hcode
    split
    · rename_i hmine
      exact ⟨h, Or.inl (h.open hmine.2)⟩
    · exact h
  | turn d =>
    cases hcode
    exact ⟨Closed.keep h rfl rfl, Or.inr (hempty d rfl)⟩
  | curDir d =>
    cases hcode
    exact ⟨h.1.keep rfl rfl, h.2⟩
  | inFlight d =>
    cases hcode
    intro hfour
    refine h.1 ?_
    change 3 < s.inFlight + 1 at hfour
    omega
  | isThird d =>
    cases hcode
    split
    · trivial
    · rename_i hthird
      intro hfull
      exact h (lt_of_le_of_ne hfull (Ne.symm hthird))
  | toggle d =>
    cases hcode
    exact fun _ => rfl
  | leave d =>
    cases hcode
    intro hfull
    refine h ?_
    change 3 ≤ s.inFlight - 1 at hfull
    omega
  | isLast d =>
    cases hcode
    split
    · rename_i hlast
      exact hlast
    · exact h
  | turnBack d =>
    have hzero : s.inFlight = 0 := h
    simp only [program] at hcode
    split at hcode <;> cases hcode
    · exact hzero
    · intro hfull
      omega
  | untoggle d =>
    have hzero : s.inFlight = 0 := h
    cases hcode
    intro hfull
    change 3 ≤ s.inFlight at hfull
    omega
  | isFirst d | isEmpty d =>
    cases hcode
    split <;> exact h
  | _ => cases hcode <;> exact Closed.keep h rfl rfl

/-- The library keeps the section that goes on to the assignments of `toggleDir`. -/
abbrev Masked (cars : List (Heading × ℤ)) : World Lane Place → Prop :=
  Secured (program cars) (·.isEntry = true) (·.isMasked = true)

def Batched (w : World Lane Place) : Prop :=
  Batch w.shared (w.threads w.sys.currentRunningThread)

theorem Batched.step (hb : Batched w) (hm : Masked cars w) (ho : Ordered w)
    (hown : EntersOwn tick w) (h : w.step g (program cars) tick = some w') : Batched w' := by
  refine hm.tallied_step (Q := fun s _ l => Batch s l) program_plain
    program_masked h hown (fun s b l l' hl hl' hQ => (batch_outer hl').mpr ((batch_outer hl).mp hQ))
    (fun x y δ b' hplace hcur hmove _ hQ => ?_)
    (fun f v p before place next hcode => forks_weight hcode) hb
  cases hmove with
  | stay x hshared => rwa [hshared]
  | start f f' v hmine hshared =>
    obtain rfl := hmine trivial
    rwa [hshared]
  | routine op before place next hcode hop hshared => rwa [hshared]
  | call op place next hcode hshared =>
    rw [hshared]
    obtain ⟨hnext, -⟩ := program_masked.call _ _ _ _ hcode
    refine (batch_outer hnext).mpr ?_
    cases place with
    | forks rest => exact hQ
    | turnBack d =>
      simp only [program] at hcode
      split at hcode <;> cases hcode
    | _ => cases hcode <;> exact hQ
  | act place next hcode =>
    refine act_batch hcode (fun d hd => ?_) hQ
    subst hd
    have hfits := ho.fits
    rw [show w.threads w.sys.currentRunningThread = .turn d from congrArg Prod.snd hplace] at hfits
    exact hfits.2

theorem batched_opened (h : World.Opens (program cars) objects opened w) : Batched w := by
  obtain ⟨-, -, -, hshared, hthreads⟩ := h
  unfold Batched
  rw [hthreads, hshared]
  intro hfull
  cases hfull

theorem batched_of_run (h₀ : World.Opens (program cars) objects opened w₀)
    (hrun : Run (World.step g (program cars)) EntersOwn w₀ w) : Batched w := by
  have hinv := hrun.invariant (I := fun w => Run (World.step g (program cars)) EntersOwn w₀ w ∧
    Masked cars w ∧ Batched w) ⟨.refl _, h₀.secured program_masked, batched_opened h₀⟩ ?_
  · exact hinv.2.2
  · intro tick w w' hI hown h
    obtain ⟨hrun, hm, hb⟩ := hI
    obtain ⟨-, ho, -⟩ := ordered_of_run h₀ hrun
    exact ⟨hrun.tail hown h, hm.step program_plain program_masked h, hb.step hm ho hown h⟩

/-- Only `inFlight++` adds to `inFlight`. -/
theorem act_inFlight {place next : Place} (hcode : (program cars).code s place = .act s' next) :
    s'.inFlight ≤ s.inFlight ∨ ∃ d, place = .inFlight d := by
  cases place with
  | inFlight d => exact Or.inr ⟨d, rfl⟩
  | forks rest => cases rest <;> cases hcode
  | turnBack d =>
    simp only [program] at hcode
    split at hcode <;> cases hcode <;> exact Or.inl le_rfl
  | leave d =>
    cases hcode
    refine Or.inl ?_
    change s.inFlight - 1 ≤ s.inFlight
    omega
  | _ => cases hcode <;> exact Or.inl le_rfl

/-- More than three cars come to be in flight only where no car is counted on the side opposite
to that of the car which takes off. -/
theorem batch_bounded (h₀ : World.Opens (program cars) objects opened w₀)
    (hrun : Run (World.step g (program cars)) EntersOwn w₀ w)
    (h : w.step g (program cars) tick = some w') :
    w'.shared.inFlight ≤ 3 ∨ w'.shared.inFlight ≤ w.shared.inFlight ∨
      ∃ d, w.threads w.sys.currentRunningThread = .inFlight d ∧
        w.shared.numCarsOf (opposite d) = 0 := by
  cases World.goes h with
  | act shared next hstack hcode =>
    rcases act_inFlight hcode with hle | ⟨d, hplace⟩
    · exact Or.inr (Or.inl hle)
    · have hbatch := batched_of_run h₀ hrun
      unfold Batched at hbatch
      rw [hplace] at hbatch hcode
      rcases hbatch.2 with hopen | hempty
      · left
        cases hcode
        change w.shared.inFlight + 1 ≤ 3
        omega
      · exact Or.inr (Or.inr ⟨d, hplace, hempty⟩)
  | expire | call | ret | exec => exact Or.inr (Or.inl le_rfl)

/-- Five cars that all go north. -/
def northward : List (Heading × ℤ) := List.replicate 5 (.north, 127)

/-- A fourth car takes off while three are in flight. -/
theorem batch_exceeded :
    ¬ ∀ (cars : List (Heading × ℤ)) (w₀ w : World Lane Place),
      World.Opens (program cars) objects opened w₀ →
      Run (World.step .statement (program cars)) EntersOwn w₀ w → w.shared.inFlight ≤ 3 := by
  intro hbound
  obtain ⟨w₀, w, h₀, hrun, hgood⟩ := exists_world .statement EntersOwn (program northward) objects
    opened 127 (List.replicate 346 .run) (fun w => w.shared.inFlight = 4) (by decide +kernel)
  have hle := hbound northward w₀ w h₀ hrun
  have hfour : w.shared.inFlight = 4 := of_decide_eq_true hgood
  omega

/-- That car goes north, and no car is counted in the south. -/
theorem batch_bounded_fourth :
    ∃ w₀ w w' : World Lane Place, World.Opens (program northward) objects opened w₀ ∧
      w.shared.inFlight = 3 ∧ w'.shared.inFlight = 4 ∧
      ∃ d, w.threads w.sys.currentRunningThread = .inFlight d ∧
        w.shared.numCarsOf (opposite d) = 0 := by
  obtain ⟨w₀, w, h₀, hrun, hgood⟩ := exists_world .statement EntersOwn (program northward) objects
    opened 127 (List.replicate 345 .run) (fun w => w.shared.inFlight = 3 ∧
      (w.step .statement (program northward) .run).any fun w' => w'.shared.inFlight = 4)
    (by decide +kernel)
  obtain ⟨hthree, hstep⟩ := of_decide_eq_true hgood
  obtain ⟨w', hstep, hfour⟩ := (Option.any_eq_true ..).mp hstep
  have hfour : w'.shared.inFlight = 4 := of_decide_eq_true hfour
  refine ⟨w₀, w, w', h₀, hthree, hfour, ?_⟩
  rcases batch_bounded h₀ hrun hstep with hle | hle | hempty
  · omega
  · omega
  · exact hempty

end UserThreads.FairBridge
