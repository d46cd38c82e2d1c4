import Mathlib.Order.Lattice
import Mathlib.Logic.Function.Basic
import Mathlib.Data.List.Basic

/-!
A multilevel queue: a FIFO list at each level of a linear order. An element is
appended at one level, and the head of the highest level that is not empty is
taken. When every element lies at the level of its own priority, what is taken
has a greatest priority.

The other sections do not use the order. What leaves a single queue leaves in the
order in which it stood there. An element of a family of queues is absent or stands
somewhere once, and each operation says how this changes.
-/
namespace UserThreads.MultilevelQueue

variable {ι α : Type*}

abbrev Levels (ι α : Type*) := ι → List α

inductive Op (ι α : Type*)
  | keep
  | append (p : ι) (x : α)
  | take (p : ι) (x : α)

/-- Every element lies at the level of its priority. -/
def Placed (prio : α → ι) (R : Levels ι α) : Prop := ∀ p, ∀ x ∈ R p, prio x = p

section Updates

variable [DecidableEq ι]

def Levels.set (R : Levels ι α) (p : ι) (xs : List α) : Levels ι α := Function.update R p xs

def Levels.append (R : Levels ι α) (p : ι) (x : α) : Levels ι α := R.set p (R p ++ [x])

/-- Each element in its turn goes to the end of the level of its priority. -/
def Levels.appendAll (R : Levels ι α) (prio : α → ι) (xs : List α) : Levels ι α :=
  xs.foldl (fun R x => R.append (prio x) x) R

variable {R : Levels ι α} {p q : ι} {xs : List α}

@[simp] theorem Levels.set_self : R.set p xs p = xs := Function.update_self ..

theorem Levels.set_of_ne (h : q ≠ p) : R.set p xs q = R q := Function.update_of_ne h ..

theorem Levels.append_comm {x y : α} (h : p ≠ q) :
    (R.append p x).append q y = (R.append q y).append p x := by
  simp only [Levels.append, Levels.set, Function.update_of_ne h, Function.update_of_ne h.symm]
  exact Function.update_comm h _ _ _

theorem Levels.appendAll_snoc {prio : α → ι} {x : α} :
    R.appendAll prio (xs ++ [x]) = (R.appendAll prio xs).append (prio x) x := by
  simp [Levels.appendAll]

end Updates

section Steps

variable [DecidableEq ι] [LinearOrder ι]

/-- The effect of an operation. -/
inductive Step : Op ι α → Levels ι α → Levels ι α → Prop
  | keep (R : Levels ι α) : Step .keep R R
  | append (R : Levels ι α) (p : ι) (x : α) : Step (.append p x) R (R.append p x)
  | take (R : Levels ι α) (p : ι) (x : α) (rest : List α) (hhead : R p = x :: rest)
      (hhigh : ∀ p', p < p' → R p' = []) : Step (.take p x) R (R.set p rest)

variable {prio : α → ι} {R R' : Levels ι α} {p : ι} {x : α}

theorem Step.take_ne_nil (h : Step (.take p x) R R') : R p ≠ [] := by
  cases h with
  | take _ _ _ rest hhead _ =>
    rw [hhead]
    exact List.cons_ne_nil x rest

/-- What is taken has a greatest priority of all that is there. -/
theorem Placed.take_max (h : Placed prio R) (hstep : Step (.take p x) R R') {q : ι} {y : α}
    (hy : y ∈ R q) : prio y ≤ prio x := by
  cases hstep with
  | take _ _ _ rest hhead hhigh =>
    rw [h q y hy, h p x (hhead ▸ List.mem_cons_self ..)]
    by_contra hlt
    rw [hhigh q (lt_of_not_ge hlt)] at hy
    cases hy

end Steps

section Fifo

variable {xs ys taken rest : List α} {x : α}

/-- A queue held `xs`, then `x`, and then `ys`, which may have come later; of these
`taken` has left and `rest` is still there. -/
theorem fifo_ahead (h : xs ++ x :: ys = taken ++ rest) (hx : x ∉ xs) :
    (x ∉ taken → taken <+: xs ∧ x ∈ rest) ∧ (xs.length < taken.length → x ∈ taken) ∧
      (x ∈ taken → xs ++ [x] <+: taken) := by
  rcases List.append_eq_append_iff.mp h with ⟨more, rfl, hmore⟩ | ⟨left, rfl, rfl⟩
  · cases more with
    | nil =>
      rw [List.append_nil]
      refine ⟨fun _ => ⟨List.prefix_refl xs, ?_⟩, fun hlt => absurd hlt (Nat.lt_irrefl _),
        fun hmem => absurd hmem hx⟩
      rw [show rest = x :: ys from hmore.symm]
      exact List.mem_cons_self ..
    | cons y more =>
      cases hmore
      have hmem : x ∈ xs ++ x :: more := List.mem_append_right _ (List.mem_cons_self ..)
      exact ⟨fun hnot => absurd hmem hnot, fun _ => hmem, fun _ => ⟨more, by simp⟩⟩
  · refine ⟨fun _ => ⟨List.prefix_append taken left, by simp⟩, fun hlt => ?_, fun hmem => ?_⟩
    · rw [List.length_append] at hlt
      omega
    · exact absurd (List.mem_append_left _ hmem) hx

end Fifo

section Standing

variable [DecidableEq ι] {R : Levels ι α} {p q : ι} {x y : α} {rest : List α}

/-- The element is in no queue. -/
def Absent (R : Levels ι α) (x : α) : Prop := ∀ p, x ∉ R p

theorem mem_append_iff : x ∈ R.append p y q ↔ x ∈ R q ∨ q = p ∧ x = y := by
  by_cases hq : q = p
  · subst hq
    simp [Levels.append]
  · simp [Levels.append, Levels.set_of_ne hq, hq]

theorem length_le_append : (R q).length ≤ (R.append p y q).length := by
  by_cases hq : q = p
  · simp [Levels.append, hq]
  · rw [Levels.append, Levels.set_of_ne hq]

theorem mem_take_iff (hhead : R p = y :: rest) (hne : x ≠ y) : x ∈ R.set p rest q ↔ x ∈ R q := by
  by_cases hq : q = p
  · subst hq
    simp [hhead, hne]
  · rw [Levels.set_of_ne hq]

theorem not_absent_append (h : ¬ Absent R x) : ¬ Absent (R.append p y) x :=
  fun h' => h fun q hq => h' q (mem_append_iff.mpr (Or.inl hq))

theorem not_absent_append_self : ¬ Absent (R.append p x) x :=
  fun h => h p (mem_append_iff.mpr (Or.inr ⟨rfl, rfl⟩))

theorem absent_append_iff (hne : x ≠ y) : Absent (R.append p y) x ↔ Absent R x :=
  forall_congr' fun q => not_congr (by simp [mem_append_iff, hne])

theorem absent_take_iff (hhead : R p = y :: rest) (hne : x ≠ y) :
    Absent (R.set p rest) x ↔ Absent R x :=
  forall_congr' fun _ => not_congr (mem_take_iff hhead hne)

end Standing

section Once

variable [DecidableEq α] {R : Levels ι α} {p q : ι} {x y : α} {rest : List α}

/-- The element is in the queue `p`, once, and in no other. -/
def Once (R : Levels ι α) (p : ι) (x : α) : Prop := (R p).count x = 1 ∧ ∀ q, q ≠ p → x ∉ R q

theorem Once.mem (h : Once R p x) : x ∈ R p :=
  List.count_pos_iff.mp (by rw [h.1]; exact Nat.one_pos)

variable [DecidableEq ι]

theorem once_append_iff (hne : x ≠ y) : Once (R.append p y) q x ↔ Once R q x := by
  have hcount : (R.append p y q).count x = (R q).count x := by
    by_cases hq : q = p
    · subst hq
      simp [Levels.append, Ne.symm hne]
    · rw [Levels.append, Levels.set_of_ne hq]
  simp only [Once, hcount, mem_append_iff, hne, and_false, or_false]

theorem once_take_iff (hhead : R p = y :: rest) (hne : x ≠ y) :
    Once (R.set p rest) q x ↔ Once R q x := by
  have hcount : (R.set p rest q).count x = (R q).count x := by
    by_cases hq : q = p
    · subst hq
      simp [hhead, Ne.symm hne]
    · rw [Levels.set_of_ne hq]
  simp only [Once, hcount, mem_take_iff hhead hne]

/-- What is appended stands there once if it was absent. -/
theorem Absent.append (h : Absent R x) : Once (R.append p x) p x := by
  refine ⟨?_, fun q hq => ?_⟩
  · simp [Levels.append, List.count_eq_zero.mpr (h p)]
  · simpa [mem_append_iff, hq] using h q

/-- What is appended and was not absent stands there twice or elsewhere too. -/
theorem not_once_append (h : x ∈ R q) (r : ι) : ¬ Once (R.append p x) r x := by
  intro h'
  obtain ⟨hcount, hothers⟩ := h'
  have hp : p = r := by
    by_contra hne
    exact hothers p hne (mem_append_iff.mpr (Or.inr ⟨rfl, rfl⟩))
  have hq : q = r := by
    by_contra hne
    exact hothers q hne (mem_append_iff.mpr (Or.inl h))
  subst hp
  subst hq
  have hpos := List.count_pos_iff.mpr h
  simp only [Levels.append, Levels.set_self, List.count_append, List.count_cons_self,
    List.count_nil, Nat.zero_add, Nat.add_eq_right] at hcount
  omega

/-- What stands once in one queue is absent once it is taken. -/
theorem Once.take (h : Once R q x) (hhead : R p = x :: rest) : Absent (R.set p rest) x := by
  have hpq : p = q := by
    by_contra hne
    exact h.2 p hne (by simp [hhead])
  subst hpq
  intro r
  by_cases hr : r = p
  · subst hr
    have hcount := h.1
    rw [hhead, List.count_cons_self] at hcount
    simpa using List.count_eq_zero.mp (Nat.succ.inj hcount)
  · rw [Levels.set_of_ne hr]
    exact h.2 r hr

end Once

end UserThreads.MultilevelQueue
