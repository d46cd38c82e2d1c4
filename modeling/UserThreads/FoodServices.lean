import UserThreads.BoundedBuffer
import UserThreads.Standstill

/-!
The cooks and students of `TEST4.C` never come to a standstill. If no thread could go on,
each would wait for a burger or for a free slot, or would have returned from `funcA`; then
the permits of the two semaphores together would be the slots of the buffer. So one
semaphore would have a permit, and nobody waits at such a semaphore, although a cook
waits at one and a student at the other.
-/
namespace UserThreads.BoundedBuffer

open Threads Runs Tallies

/-- The function that a place is in. -/
def Place.function : Place → ThreadFunc
  | .funcA _ => 0
  | .pEmpty | .acquireP | .produceItem | .insertItem _ | .insertIndex | .releaseP | .vFull => 1
  | .pFull | .acquireC | .removeIndex | .removeItem | .consumeItem _ | .releaseC | .vEmpty => 2

/-- The thread is in function `f` or has it still to fork. -/
def Provides (f : ThreadFunc) (x : Option Threads.Op × Place) : Prop :=
  x.2.function = f ∨ (∃ rest p, x.2 = .funcA rest ∧ (f, p) ∈ rest) ∨
    ∃ v p, x.1 = some (.tFork f v p)

variable {X : ℕ} {crew : List (ThreadFunc × ℤ)} {g : Grain} {w w' w₀ : World Kitchen Place}
  {tick : Tick} {t : Tid} {f : ThreadFunc}

theorem program_semaphoreOnly : (program crew).SemaphoreOnly := by
  intro shared place op next h
  cases place with
  | funcA rest =>
    cases rest <;> cases h
    rfl
  | _ => cases h <;> rfl

/-- Who is in function `f`, or has it to fork, stays so until it has forked it. -/
theorem moves_provides {s s' : Kitchen} {x y : Option Threads.Op × Place} {d : SemId → ℤ}
    (hf : f = 1 ∨ f = 2) (h : Moves (program crew) True s s' x y d) (hx : Provides f x) :
    Provides f y := by
  cases h with
  | stay => exact hx
  | start f₁ f₂ v hown => exact hown trivial ▸ hx
  | act place next hcode =>
    cases place with
    | funcA rest => cases rest <;> cases hcode
    | _ => cases hcode <;> simpa [Provides, Place.function] using hx
  | call op place next hcode hshared =>
    cases place with
    | funcA rest =>
      cases rest with
      | nil => cases hcode
      | cons head rest =>
        obtain ⟨f', p'⟩ := head
        cases hcode
        rcases hx with hrole | ⟨rest', p, heq, hmem⟩ | ⟨v, p, heq⟩
        · rcases hf with rfl | rfl <;> cases hrole
        · cases heq
          rcases List.mem_cons.mp hmem with hhead | hrest
          · cases hhead
            exact Or.inr (Or.inr ⟨_, _, rfl⟩)
          · exact Or.inr (Or.inl ⟨_, p, rfl, hrest⟩)
        · cases heq
    | _ => cases hcode <;> simpa [Provides, Place.function] using hx
  | routine op before place next hcode hop =>
    rcases hx with hrole | hlist | ⟨v, p, heq⟩
    · exact Or.inl hrole
    · exact Or.inr (Or.inl hlist)
    · cases heq
      exact absurd rfl (hop f v p)

/-- There is a thread in function `f`, or one that has it to fork. -/
def Provided (f : ThreadFunc) (w : World Kitchen Place) : Prop :=
  ∃ t, w.sys.Forked t ∧ Provides f (w.pos t)

theorem Provided.turn (hf : f = 1 ∨ f = 2) (hp : Provided f w) (hn : 0 ≤ w.sys.gThreadID)
    (h : Turn (program crew) True w w' w.sys.currentRunningThread) : Provided f w' := by
  obtain ⟨t, ht, hx⟩ := hp
  cases h with
  | moves x y d hplace hpos hid _ _ hmove =>
    refine ⟨t, (forked_iff hid).mpr ht, ?_⟩
    rw [hpos]
    by_cases hcur : t = w.sys.currentRunningThread
    · subst hcur
      rw [Function.update_self]
      exact moves_provides hf hmove (hplace ▸ hx)
    · rwa [Function.update_of_ne hcur]
  | fork f' v p before place next hplace _ _ hpos _ hid =>
    have hnew : t ≠ w.sys.gThreadID + 1 := ne_of_lt (lt_of_le_of_lt ht.2 (lt_next _))
    have ht' : w'.sys.Forked t := ⟨ht.1, hid ▸ le_trans ht.2 (le_of_lt (lt_next _))⟩
    by_cases hcur : t = w.sys.currentRunningThread
    · subst hcur
      rw [hplace] at hx
      rcases hx with hrole | hlist | ⟨v', p', heq⟩
      · refine ⟨_, ht', Or.inl ?_⟩
        rwa [hpos, Function.update_of_ne hnew, Function.update_self]
      · refine ⟨_, ht', Or.inr (Or.inl ?_)⟩
        rwa [hpos, Function.update_of_ne hnew, Function.update_self]
      · cases heq
        refine ⟨w.sys.gThreadID + 1, ⟨Int.lt_add_one_of_le hn, le_of_eq hid.symm⟩, Or.inl ?_⟩
        rw [hpos, Function.update_self]
        rcases hf with rfl | rfl <;> rfl
    · refine ⟨t, ht', ?_⟩
      rwa [hpos, Function.update_of_ne hnew, Function.update_of_ne hcur]

theorem provided_opened (h : World.Opens (program crew) (objects X) opened w) {p : ℤ}
    (hmem : (f, p) ∈ crew) : Provided f w := by
  obtain ⟨f', v, p', hb⟩ := h.initial.begun
  obtain ⟨-, -, -, -, hthreads⟩ := h
  refine ⟨1, ⟨Int.one_pos, le_of_eq hb.gThreadID.symm⟩, Or.inr (Or.inl ⟨crew, p, ?_, hmem⟩)⟩
  change w.threads 1 = _
  rw [hthreads]
  rfl

theorem provided_of_run (hf : f = 1 ∨ f = 2) {p : ℤ} (hmem : (f, p) ∈ crew)
    (h₀ : World.Opens (program crew) (objects X) opened w₀)
    (hrun : Run (World.step g (program crew)) EntersOwn w₀ w) : Provided f w := by
  refine (hrun.invariant (I := fun w => Hosted (program crew) w ∧ Provided f w)
    ⟨h₀.hosted, provided_opened h₀ hmem⟩ fun tick a b hI hown hstep => ?_).2
  have hturn : Turn (program crew) True a b a.sys.currentRunningThread :=
    (World.goes hstep).turn hI.1 program_plain fun _ => hown
  exact ⟨hI.1.step program_plain hstep, hI.2.turn hf hI.1.calm.lives.exits.next hturn⟩

theorem code_ret {shared : Kitchen} {place : Place}
    (h : (program crew).code shared place = .ret) : place = .funcA [] := by
  cases place with
  | funcA rest =>
    cases rest with
    | nil => rfl
    | cons head rest => cases h
  | _ => cases h

/-- Where a thread is that cannot go on. -/
theorem stopped_cases (hs : Settled (program crew) w) (ht : w.sys.Forked t)
    (hstop : w.sys.Ended t ∨ ¬ w.sys.Awake t) :
    w.pos t = (none, .funcA []) ∨
      t ∈ w.sys.contents (.sem 2) ∧ w.pos t = (none, .acquireP) ∨
      t ∈ w.sys.contents (.sem 1) ∧ w.pos t = (none, .acquireC) := by
  by_cases hended : w.sys.Ended t
  · obtain ⟨shared, hcode⟩ := hs.returned t hended
    exact Or.inl (Prod.ext (hs.rest.past hended).1 (code_ret hcode))
  · obtain ⟨i, hmem, hcalling, shared, place, hcode⟩ :=
      hs.asleep ht hended (hstop.resolve_left hended)
    rcases code_wait hcode with ⟨rfl, hplace⟩ | ⟨rfl, hplace⟩
    · exact Or.inr (Or.inl ⟨hmem, Prod.ext hcalling hplace⟩)
    · exact Or.inr (Or.inr ⟨hmem, Prod.ext hcalling hplace⟩)

/-- If no thread can go on, the permits at the semaphores are the slots of the buffer. -/
theorem slots_le_values (hs : Settled (program crew) w) (hb : Stocked X w)
    (hstop : ∀ t, w.sys.Forked t → w.sys.Ended t ∨ ¬ w.sys.Awake t) :
    X ≤ (w.sys.semaphores 1).getD 0 + (w.sys.semaphores 2).getD 0 := by
  have hcount : ∀ i, w.sys.semaphoreWaiters i = (w.sys.contents (.sem i)).length :=
    fun i => (hs.hosted.calm.waits.contents (mem_semQueue (i := i))).1
  have hnotboth : ∀ {t}, t ∈ w.sys.contents (.sem 1) → t ∉ w.sys.contents (.sem 2) := by
    intro t hone
    exact (hs.hosted.calm.unjoined.standing.of_mem hone).2 (.sem 2) (by simp)
  have hfull : w.total fullWeight ≤ (w.sys.contents (.sem 1)).length := by
    refine tally_le_length fun t ht => ?_
    rcases stopped_cases hs (mem_tids.mp ht) (hstop t (mem_tids.mp ht)) with
      hpos | ⟨hmem, hpos⟩ | ⟨hmem, hpos⟩ <;> rw [hpos]
    · split_ifs <;> decide
    · rw [if_neg fun hone => hnotboth hone hmem]
      exact le_rfl
    · rw [if_pos hmem]
      exact le_rfl
  have hempty : w.total emptyWeight ≤ (w.sys.contents (.sem 2)).length := by
    refine tally_le_length fun t ht => ?_
    rcases stopped_cases hs (mem_tids.mp ht) (hstop t (mem_tids.mp ht)) with
      hpos | ⟨hmem, hpos⟩ | ⟨hmem, hpos⟩ <;> rw [hpos]
    · split_ifs <;> decide
    · rw [if_pos hmem]
      exact le_rfl
    · rw [if_neg (hnotboth hmem)]
      exact le_rfl
  have hindex := hb.full
  have hfree := hb.empty
  rw [State.permits, hcount] at hindex hfree
  omega

/-- A cook or a student that cannot go on waits at its semaphore. -/
theorem stopped_waits (hs : Settled (program crew) w) (hf : f = 1 ∨ f = 2)
    (hp : Provided f w) (hstop : ∀ t, w.sys.Forked t → w.sys.Ended t ∨ ¬ w.sys.Awake t) :
    (f = 1 → w.sys.contents (.sem 2) ≠ []) ∧ (f = 2 → w.sys.contents (.sem 1) ≠ []) := by
  obtain ⟨t, ht, hprovides⟩ := hp
  rcases stopped_cases hs ht (hstop t ht) with hpos | ⟨hmem, hpos⟩ | ⟨hmem, hpos⟩ <;>
    rw [hpos] at hprovides <;>
    rcases hprovides with hrole | ⟨rest, p, heq, hrest⟩ | ⟨v, p, heq⟩
  · rcases hf with rfl | rfl <;> cases hrole
  · cases heq
    cases hrest
  · cases heq
  · obtain rfl : 1 = f := hrole
    exact ⟨fun _ => List.ne_nil_of_mem hmem, fun h => absurd h (by decide)⟩
  · cases heq
  · cases heq
  · obtain rfl : 2 = f := hrole
    exact ⟨fun h => absurd h (by decide), fun _ => List.ne_nil_of_mem hmem⟩
  · cases heq
  · cases heq

/-- With a slot in the buffer, a cook and a student, and every thread in the function it
was forked with, there is at any time a thread that has not ended and runs or is ready;
so `t_start` does not return. -/
theorem food_services_live {p q : ℤ} (hX : 0 < X) (hcook : (1, p) ∈ crew)
    (hstudent : (2, q) ∈ crew) (h₀ : World.Opens (program crew) (objects X) opened w₀)
    (hrun : Run (World.step g (program crew)) EntersOwn w₀ w) :
    (∃ t, w.sys.Forked t ∧ ¬ w.sys.Ended t ∧ w.sys.Awake t) ∧ w.sys.stack ≠ [.done] := by
  have hs : Settled (program crew) w :=
    settled_of_run program_semaphoreOnly h₀ (by simp [objects]) hrun
  obtain ⟨-, hb⟩ := stocked_of_run h₀ hrun
  have hlive : ∃ t, w.sys.Forked t ∧ ¬ w.sys.Ended t ∧ w.sys.Awake t := by
    by_contra hnone
    have hstop : ∀ t, w.sys.Forked t → w.sys.Ended t ∨ ¬ w.sys.Awake t := by
      intro t ht
      by_cases hended : w.sys.Ended t
      · exact Or.inl hended
      · exact Or.inr fun hawake => hnone ⟨t, ht, hended, hawake⟩
    have hvalues := slots_le_values hs hb hstop
    have hone := (stopped_waits hs (Or.inl rfl)
      (provided_of_run (Or.inl rfl) hcook h₀ hrun) hstop).1 rfl
    have htwo := (stopped_waits hs (Or.inr rfl)
      (provided_of_run (Or.inr rfl) hstudent h₀ hrun) hstop).2 rfl
    have hfull := hs.free 1
    have hempty := hs.free 2
    by_cases hpos : 0 < (w.sys.semaphores 1).getD 0
    · exact htwo (hfull hpos)
    · exact hone (hempty (by omega))
  obtain ⟨t, ht, hended, hawake⟩ := hlive
  exact ⟨⟨t, ht, hended, hawake⟩, hs.not_done hawake⟩

/-- The one student has found no burger and waits; the cook will go on. -/
theorem food_services_live_one :
    ∃ w₀ w : World Kitchen Place,
      World.Opens (program [(2, 127), (1, 127)]) (objects 1) opened w₀ ∧
      w.sys.contents (.sem 1) = [2] ∧ w.sys.stack ≠ [.done] := by
  obtain ⟨w₀, w, h₀, hrun, hgood⟩ := exists_world .statement EntersOwn
    (program [(2, 127), (1, 127)]) (objects 1) opened 126 (List.replicate 10 .run)
    (fun w => w.sys.contents (.sem 1) = [2]) (by decide +kernel)
  exact ⟨w₀, w, h₀, of_decide_eq_true hgood,
    (food_services_live (by decide) (List.mem_cons_of_mem _ (List.mem_cons_self ..))
      (List.mem_cons_self ..) h₀ hrun).2⟩

end UserThreads.BoundedBuffer
