import Mathlib.Algebra.BigOperators.Ring.Finset
import Mathlib.Algebra.Order.BigOperators.Group.Finset

/-!
Counting by weight. Everybody in a finite set has a place, and every place a
weight; the tally is the sum of the weights. It changes by what one place weighs
when one place changes, and bounds from above what a list of members weighs.
-/
namespace UserThreads.Tallies

variable {ι α : Type*} {weight : α → ℤ} {s : Finset ι} {pos : ι → α} {t : ι} {y : α}

def tally (weight : α → ℤ) (s : Finset ι) (pos : ι → α) : ℤ := ∑ t ∈ s, weight (pos t)

theorem tally_eq_zero (h : ∀ t ∈ s, weight (pos t) = 0) : tally weight s pos = 0 :=
  Finset.sum_eq_zero h

theorem tally_nonneg (hw : ∀ x, 0 ≤ weight x) : 0 ≤ tally weight s pos :=
  Finset.sum_nonneg fun t _ => hw (pos t)

theorem weight_le_tally (hw : ∀ x, 0 ≤ weight x) (ht : t ∈ s) :
    weight (pos t) ≤ tally weight s pos :=
  Finset.single_le_sum (fun u _ => hw (pos u)) ht

/-- All but one weigh nothing. -/
theorem tally_eq_single (ht : t ∈ s) (h : ∀ u ∈ s, u ≠ t → weight (pos u) = 0) :
    tally weight s pos = weight (pos t) :=
  Finset.sum_eq_single_of_mem t ht h

theorem tally_le_tally {weight' : α → ℤ} (h : ∀ x, weight x ≤ weight' x) :
    tally weight s pos ≤ tally weight' s pos :=
  Finset.sum_le_sum fun t _ => h (pos t)

theorem tally_add (weight' : α → ℤ) (s : Finset ι) (pos : ι → α) :
    tally weight s pos + tally weight' s pos = tally (fun x => weight x + weight' x) s pos :=
  Finset.sum_add_distrib.symm

/-- The weight 1 counts, the weight 0 does not. -/
theorem tally_eq_card (p : α → Bool) (hw : ∀ x, weight x = if p x then 1 else 0) :
    tally weight s pos = (s.filter fun t => p (pos t) = true).card := by
  simp only [tally, hw]
  exact Finset.sum_boole _ s

variable [DecidableEq ι]

theorem tally_update (ht : t ∈ s) :
    tally weight s (Function.update pos t y) + weight (pos t) = tally weight s pos + weight y := by
  have hrest : ∑ u ∈ s.erase t, weight (Function.update pos t y u) =
      ∑ u ∈ s.erase t, weight (pos u) := by
    refine Finset.sum_congr rfl fun u hu => ?_
    rw [Function.update_of_ne (Finset.ne_of_mem_erase hu)]
  have hbefore := Finset.add_sum_erase s (fun u => weight (pos u)) ht
  have hafter := Finset.add_sum_erase s (fun u => weight (Function.update pos t y u)) ht
  rw [Function.update_self, hrest] at hafter
  rw [tally, tally, ← hbefore, ← hafter]
  omega

theorem tally_insert (ht : t ∉ s) :
    tally weight (insert t s) (Function.update pos t y) = tally weight s pos + weight y := by
  rw [tally, Finset.sum_insert ht, Function.update_self, Int.add_comm]
  refine congrArg (· + weight y) (Finset.sum_congr rfl fun u hu => ?_)
  rw [Function.update_of_ne (ne_of_mem_of_not_mem hu ht)]

/-- The members of a list weigh at least one each. -/
theorem length_le_tally (hw : ∀ x, 0 ≤ weight x) {l : List ι} (hl : l.Nodup)
    (hmem : ∀ u ∈ l, u ∈ s ∧ 1 ≤ weight (pos u)) : l.length ≤ tally weight s pos := by
  have hsub : l.toFinset ⊆ s := fun u hu => (hmem u (List.mem_toFinset.mp hu)).1
  calc (l.length : ℤ)
      = ∑ _u ∈ l.toFinset, (1 : ℤ) := by simp [List.toFinset_card_of_nodup hl]
    _ ≤ ∑ u ∈ l.toFinset, weight (pos u) :=
        Finset.sum_le_sum fun u hu => (hmem u (List.mem_toFinset.mp hu)).2
    _ ≤ tally weight s pos :=
        Finset.sum_le_sum_of_subset_of_nonneg hsub fun u _ _ => hw _

/-- Who is not in the list weighs nothing, and its members at most one each. -/
theorem tally_le_length {l : List ι} (h : ∀ u ∈ s, weight (pos u) ≤ if u ∈ l then 1 else 0) :
    tally weight s pos ≤ l.length := by
  have hsub : s.filter (· ∈ l) ⊆ l.toFinset := fun u hu =>
    List.mem_toFinset.mpr (Finset.mem_filter.mp hu).2
  have hcard : (s.filter (· ∈ l)).card ≤ l.length :=
    (Finset.card_le_card hsub).trans (List.toFinset_card_le l)
  calc tally weight s pos
      ≤ ∑ u ∈ s, if u ∈ l then (1 : ℤ) else 0 := Finset.sum_le_sum h
    _ = (s.filter (· ∈ l)).card := Finset.sum_boole _ s
    _ ≤ l.length := Int.ofNat_le.mpr hcard

/-- One who is not in the list weighs besides. -/
theorem length_add_le_tally (hw : ∀ x, 0 ≤ weight x) {l : List ι} (hl : l.Nodup)
    (hmem : ∀ u ∈ l, u ∈ s ∧ 1 ≤ weight (pos u)) (ht : t ∈ s) (hnot : t ∉ l) :
    l.length + weight (pos t) ≤ tally weight s pos := by
  have hrest : (l.length : ℤ) ≤ tally weight (s.erase t) pos := by
    refine length_le_tally hw hl fun u hu =>
      ⟨Finset.mem_erase.mpr ⟨?_, (hmem u hu).1⟩, (hmem u hu).2⟩
    rintro rfl
    exact hnot hu
  have hall : weight (pos t) + tally weight (s.erase t) pos = tally weight s pos :=
    Finset.add_sum_erase s (fun u => weight (pos u)) ht
  omega

/-- Others of whom none is in the list weigh besides. -/
theorem length_add_tally_le (hw : ∀ x, 0 ≤ weight x) {l : List ι} (hl : l.Nodup)
    (hmem : ∀ u ∈ l, u ∈ s ∧ 1 ≤ weight (pos u)) {others : Finset ι} (hsub : others ⊆ s)
    (hnot : ∀ t ∈ others, t ∉ l) : l.length + tally weight others pos ≤ tally weight s pos := by
  have hrest : (l.length : ℤ) ≤ tally weight (s \ others) pos :=
    length_le_tally hw hl fun u hu =>
      ⟨Finset.mem_sdiff.mpr ⟨(hmem u hu).1, fun hother => hnot u hother hu⟩, (hmem u hu).2⟩
  have hall : tally weight (s \ others) pos + tally weight others pos = tally weight s pos :=
    Finset.sum_sdiff hsub
  omega

end UserThreads.Tallies
