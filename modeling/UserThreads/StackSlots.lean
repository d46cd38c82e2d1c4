import UserThreads.Executions
import Mathlib.Order.CompletePartialOrder
import Mathlib.Order.Interval.Set.Disjoint

/-!
The stacks of the threads. `sitBottom` reserves the ints for all threads below the
frame of `Scheduler`, and `incrementStack` skips a multiple of `threadCount` of them
before it calls the function of a new thread. The multiples are all different, but
`threadCount` is incremented before it is used and never decremented, so the
reserved ints are enough for one thread less than their number suggests.
-/
namespace UserThreads.Threads

open LinkedCells Queue Runs

/-- `var[5000*threadCount]` of `incrementStack` lies before the slot, and the next one begins
where that of the next thread would end. -/
def slot (threadCount : ℕ) : Set ℕ := Set.Ico (5000 * threadCount) (5000 * (threadCount + 1))

/-- `array[5000*50]` of `sitBottom`. -/
def reserved : Set ℕ := Set.Iio (5000 * 50)

/-- What lies past the array: the rest of the frame of `sitBottom`. -/
def sitBottomFrame : Set ℕ := Set.Ici (5000 * 50)

/-- The thread that the move starts, with the value that `threadCount` then has. -/
def startOf (g : Grain) (x : Move × State) : List (Tid × ℕ) :=
  match step g x.1 x.2 with
  | none => []
  | some s =>
    if s.threadCount = x.2.threadCount then [] else [(s.currentRunningThread, s.threadCount)]

/-- The threads that have been started, the last one first. -/
def started (g : Grain) (path : List (Move × State)) : List (Tid × ℕ) := path.flatMap (startOf g)

/-- The threads that have been forked and not ended. -/
def alive : List Event → List Tid
  | [] => []
  | .forked t _ _ _ :: rest => t :: alive rest
  | .ended t :: rest => (alive rest).erase t
  | _ :: rest => alive rest

/-- At most as many threads are alive as `sitBottom` has room for. -/
def FewAlive (s : State) : Prop := (alive s.hist).length ≤ 50

instance (s : State) : Decidable (FewAlive s) := inferInstanceAs (Decidable (_ ≤ _))

/-- Every thread that was started has its slot in the reserved ints, apart from those of the
live threads and from the frame of `sitBottom`. -/
def SlotsOk (g : Grain) (path : List (Move × State)) (s : State) : Prop :=
  ∀ t n, (t, n) ∈ started g path → slot n ⊆ reserved ∧ Disjoint (slot n) sitBottomFrame ∧
    ∀ u k, (u, k) ∈ started g path → u ∈ alive s.hist → u ≠ t → Disjoint (slot n) (slot k)

variable {g : Grain} {s s' s₀ : State} {m : Move} {path : List (Move × State)}

/-- `threadCount` is incremented or kept. -/
theorem Trans.threadCount (h : Trans g s m s') :
    s'.threadCount = s.threadCount ∨ s'.threadCount = s.threadCount + 1 := by
  cases h with
  | dispatchNew => exact Or.inr rfl
  | _ => exact Or.inl rfl

theorem Initial.threadCount (h : Initial s) : s.threadCount = 0 := by
  obtain ⟨a, f, v, p, store, ha, -, -, rfl⟩ := h.spec
  refine ha.invariant (I := fun s => s.threadCount = 0) (fun _ => rfl) fun call a b ha hcall => ?_
  cases call with
  | lock | sem =>
    cases hcall
    exact ha
  | cond lock =>
    simp only [Threads.mainCall, newCond, Option.bind_eq_bind, Option.bind_eq_some_iff,
      Option.some.injEq] at hcall
    obtain ⟨_, -, rfl⟩ := hcall
    exact ha

/-- The threads that are started get the numbers from 1 on, one after the other. -/
theorem started_numbers (h₀ : Initial s₀) (hpath : Path (step g) s₀ path s) :
    (started g path).map Prod.snd = (List.range' 1 s.threadCount).reverse := by
  induction hpath with
  | nil => simp [started, h₀.threadCount]
  | @snoc a b m path _ hmove ih =>
    have hcons : started g ((m, a) :: path) = startOf g (m, a) ++ started g path := rfl
    rw [hcons, List.map_append, ih, startOf, hmove]
    rcases (step_trans hmove).threadCount with hsame | hnext
    · simp [hsame]
    · simp [hnext, List.range'_concat, Nat.add_comm]

/-- So no two of them get the same. -/
theorem started_injective (h₀ : Initial s₀) (hpath : Path (step g) s₀ path s) {x y : Tid × ℕ}
    (hx : x ∈ started g path) (hy : y ∈ started g path) (heq : x.2 = y.2) : x = y := by
  have hnodup : ((started g path).map Prod.snd).Nodup := by
    rw [started_numbers h₀ hpath]
    exact List.nodup_reverse.mpr List.nodup_range'
  exact List.inj_on_of_nodup_map hnodup hx hy heq

theorem slot_disjoint {n k : ℕ} (h : n ≠ k) : Disjoint (slot n) (slot k) := by
  unfold slot
  rw [Set.Ico_disjoint_Ico]
  omega

theorem slot_reserved {n : ℕ} : slot n ⊆ reserved ↔ n ≤ 49 := by
  unfold slot reserved
  constructor
  · intro h
    have hlast : 5000 * n + 4999 ∈ Set.Iio (5000 * 50) :=
      h (Set.mem_Ico.mpr ⟨by omega, by omega⟩)
    have hlt := Set.mem_Iio.mp hlast
    omega
  · intro h i hi
    have hlt := (Set.mem_Ico.mp hi).2
    exact Set.mem_Iio.mpr (by omega)

theorem disjoint_sitBottomFrame {n : ℕ} (h : slot n ⊆ reserved) :
    Disjoint (slot n) sitBottomFrame :=
  Set.disjoint_left.mpr fun _ hi hout =>
    absurd (Set.mem_Iio.mp (h hi)) (not_lt.mpr (Set.mem_Ici.mp hout))

/-- The slots of all threads are as they should be exactly when no more than 49 threads have
been started. -/
theorem slots_ok_iff (h₀ : Initial s₀) (hpath : Path (step g) s₀ path s) :
    SlotsOk g path s ↔ (started g path).length ≤ 49 := by
  have hnumbers := started_numbers h₀ hpath
  have hlength : (started g path).length = s.threadCount := by
    rw [← List.length_map (f := Prod.snd), hnumbers]
    simp
  rw [hlength]
  constructor
  · intro hok
    by_contra hmany
    have hfifty : 50 ∈ (started g path).map Prod.snd := by
      rw [hnumbers]
      simp only [List.mem_reverse, List.mem_range'_1]
      omega
    obtain ⟨⟨t, n⟩, hmem, rfl⟩ := List.mem_map.mp hfifty
    have hle := slot_reserved.mp (hok t _ hmem).1
    omega
  · intro hfew t n hmem
    have hn : n ∈ (started g path).map Prod.snd := List.mem_map_of_mem hmem
    rw [hnumbers] at hn
    simp only [List.mem_reverse, List.mem_range'_1] at hn
    have hres : slot n ⊆ reserved := slot_reserved.mpr (by omega)
    refine ⟨hres, disjoint_sitBottomFrame hres, fun u k hu _ hne => slot_disjoint fun heq => ?_⟩
    exact hne (congrArg Prod.fst (started_injective h₀ hpath hu hmem heq.symm))

/-- The first thread forks 49 threads of its own priority, and each of the fifty calls
`t_yield` when it is started. -/
def fiftyThreads : List Move :=
  [.exec, .exec] ++ (List.replicate 49 [.call (.tFork 0 .null 127), .exec, .exec]).flatten ++
    (List.replicate 49 [.call .tYield, .exec, .exec, .exec]).flatten

/-- The slot of the fiftieth thread begins where the reserved ints end. -/
theorem fiftieth_slot_outside :
    ¬ ∀ s₀ path s, Initial s₀ → Path (step .statement) s₀ path s →
      (∀ x ∈ path, FewAlive x.2) → FewAlive s → SlotsOk .statement path s := by
  intro hall
  obtain ⟨s₀, path, s, h₀, hpath, hok, hgood⟩ := exists_path .statement (fun _ s => FewAlive s)
    [] 127 fiftyThreads (fun s => s.threadCount = 50 ∧ FewAlive s) (by decide +kernel)
  obtain ⟨hcount, hfew⟩ := of_decide_eq_true hgood
  have hmem : 50 ∈ (started .statement path).map Prod.snd := by
    rw [started_numbers h₀ hpath, hcount]
    decide
  obtain ⟨⟨t, n⟩, hmem, rfl⟩ := List.mem_map.mp hmem
  have hle := slot_reserved.mp (hall s₀ path s h₀ hpath hok hfew t _ hmem).1
  omega

/-- Two threads are started. -/
theorem slots_ok_iff_two :
    ∃ (s₀ : State) (path : List (Move × State)) (s : State), Initial s₀ ∧ s.threadCount = 2 ∧
      (SlotsOk .statement path s ↔ (started .statement path).length ≤ 49) := by
  obtain ⟨s₀, path, s, h₀, hpath, -, hgood⟩ := exists_path .statement AnyTiming [] 127
    [.exec, .exec, .call (.tFork 1 .null 126), .exec, .exec, .call (.tExit 0), .exec, .exec, .exec]
    (fun s => s.threadCount = 2) (by decide +kernel)
  exact ⟨s₀, path, s, h₀, of_decide_eq_true hgood, slots_ok_iff h₀ hpath⟩

end UserThreads.Threads
