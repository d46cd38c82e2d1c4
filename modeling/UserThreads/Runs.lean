import Mathlib.Data.List.Basic
import Mathlib.Logic.Relation

/-!
Runs of a partial step function. A move is offered to a state and either
leads to one successor or is refused. `Run` restricts every move by a
condition on the state it is made in; `Path` also records the moves made and
the states they were made in. An invariant of the allowed moves is an
invariant of the runs, and a run can be computed from its list of moves.
-/
namespace UserThreads.Runs

variable {σ μ : Type*}

/-- Some moves, each allowed where it is made, lead from the first state to
the second. -/
inductive Run (step : μ → σ → Option σ) (ok : μ → σ → Prop) : σ → σ → Prop
  | refl (s : σ) : Run step ok s s
  | tail {s t u : σ} {m : μ} :
      Run step ok s t → ok m t → step m t = some u → Run step ok s u

namespace Run

variable {step : μ → σ → Option σ} {ok : μ → σ → Prop} {s t : σ}

/-- The invariant rule: what holds at the start and survives every allowed
move holds at the end of every run. -/
theorem invariant {I : σ → Prop} (hrun : Run step ok s t) (hstart : I s)
    (hstep : ∀ m a b, I a → ok m a → step m a = some b → I b) : I t := by
  induction hrun with
  | refl => exact hstart
  | tail _ hok hmove ih => exact hstep _ _ _ ih hok hmove

theorem mono {ok' : μ → σ → Prop} (hrun : Run step ok s t) (h : ∀ m a, ok m a → ok' m a) :
    Run step ok' s t := by
  induction hrun with
  | refl => exact .refl _
  | tail _ hok hmove ih => exact .tail ih (h _ _ hok) hmove

/-- The simulation rule: where the invariant holds, each allowed move is seen as a step of
the relation or not at all. -/
theorem simulates {τ : Type*} {I : σ → Prop} {R : τ → τ → Prop} (view : σ → τ)
    (hrun : Run step ok s t) (hstart : I s)
    (hstep : ∀ m a b, I a → ok m a → step m a = some b →
      I b ∧ (view b = view a ∨ R (view a) (view b))) :
    Relation.ReflTransGen R (view s) (view t) := by
  refine (hrun.invariant (I := fun a => I a ∧ Relation.ReflTransGen R (view s) (view a))
    ⟨hstart, .refl⟩ fun m a b ha hok hmove => ?_).2
  obtain ⟨hb, hsame | hrel⟩ := hstep m a b ha.1 hok hmove
  · exact ⟨hb, hsame ▸ ha.2⟩
  · exact ⟨hb, ha.2.tail hrel⟩

end Run

/-- Make the listed moves in order, refusing those that are not allowed. -/
def play (step : μ → σ → Option σ) (ok : μ → σ → Prop) [∀ m a, Decidable (ok m a)] :
    List μ → σ → Option σ
  | [], s => some s
  | m :: ms, s => if ok m s then (step m s).bind (play step ok ms) else none

/-- A run together with the moves made and the states they were made in,
the latest first. -/
inductive Path (step : μ → σ → Option σ) : σ → List (μ × σ) → σ → Prop
  | nil (s : σ) : Path step s [] s
  | snoc {s t u : σ} {m : μ} {l : List (μ × σ)} :
      Path step s l t → step m t = some u → Path step s ((m, t) :: l) u

namespace Path

variable {step : μ → σ → Option σ} {ok : μ → σ → Prop} {s t : σ} {l : List (μ × σ)}

theorem run (hpath : Path step s l t) (hok : ∀ x ∈ l, ok x.1 x.2) : Run step ok s t := by
  induction hpath with
  | nil => exact .refl _
  | snoc _ hmove ih =>
    exact .tail (ih fun x hx => hok x (List.mem_cons_of_mem _ hx))
      (hok _ (List.mem_cons_self ..)) hmove

/-- Every state a path passes through is reached by a run. -/
theorem run_of_mem (hpath : Path step s l t) (hok : ∀ x ∈ l, ok x.1 x.2) {x : μ × σ}
    (hx : x ∈ l) : Run step ok s x.2 := by
  induction hpath with
  | nil => cases hx
  | snoc hinit _ ih =>
    have hrest := fun y hy => hok y (List.mem_cons_of_mem _ hy)
    rcases List.mem_cons.mp hx with rfl | hmem
    · exact hinit.run hrest
    · exact ih hrest hmem

/-- A path passes through each of its states. -/
theorem of_append {post pre : List (μ × σ)} {x : μ × σ} (hpath : Path step s l t)
    (hl : l = post ++ x :: pre) : Path step s pre x.2 := by
  induction hpath generalizing post with
  | nil => cases post <;> cases hl
  | snoc hinit _ ih =>
    cases post with
    | nil =>
      cases hl
      exact hinit
    | cons y post =>
      cases hl
      exact ih rfl

/-- What holds at the end of every run holds all along a path of allowed moves. -/
theorem forall_of_run {P : σ → Prop} (hpath : Path step s l t) (hok : ∀ x ∈ l, ok x.1 x.2)
    (h : ∀ u, Run step ok s u → P u) : (∀ x ∈ l, P x.2) ∧ P t :=
  ⟨fun _ hx => h _ (hpath.run_of_mem hok hx), h t (hpath.run hok)⟩

/-- When a move keeps a property exactly under a condition on the move, the
property holds all along a path exactly when every move met the condition.
The invariant `I` may use the property, which holds up to that point. -/
theorem forall_iff {I P : σ → Prop} {C : μ → σ → Prop} (hpath : Path step s l t)
    (hok : ∀ x ∈ l, ok x.1 x.2) (hI : I s) (hP : P s)
    (hstep : ∀ m a b, I a → P a → ok m a → step m a = some b →
      (P b ↔ C m a) ∧ (P b → I b)) :
    ((∀ x ∈ l, P x.2) ∧ P t) ↔ ∀ x ∈ l, C x.1 x.2 := by
  have hall : ∀ {l t}, Path step s l t → (∀ x ∈ l, ok x.1 x.2) →
      (((∀ x ∈ l, P x.2) ∧ P t) ↔ ∀ x ∈ l, C x.1 x.2) ∧
        ((∀ x ∈ l, P x.2) ∧ P t → I t) := by
    intro l t hpath
    induction hpath with
    | nil => exact fun _ => ⟨⟨fun _ _ h => absurd h List.not_mem_nil, fun _ =>
        ⟨fun _ h => absurd h List.not_mem_nil, hP⟩⟩, fun _ => hI⟩
    | @snoc a b m l _ hmove ih =>
      intro hok
      obtain ⟨hiff, hinv⟩ := ih fun x hx => hok x (List.mem_cons_of_mem _ hx)
      have hone := hok _ (List.mem_cons_self ..)
      simp only [List.forall_mem_cons]
      refine ⟨⟨?_, ?_⟩, ?_⟩
      · intro h'
        obtain ⟨⟨ha, hl⟩, hb⟩ := h'
        exact ⟨((hstep m a b (hinv ⟨hl, ha⟩) ha hone hmove).1).mp hb, hiff.mp ⟨hl, ha⟩⟩
      · intro h'
        obtain ⟨hc, hl⟩ := h'
        obtain ⟨hl, ha⟩ := hiff.mpr hl
        exact ⟨⟨ha, hl⟩, ((hstep m a b (hinv ⟨hl, ha⟩) ha hone hmove).1).mpr hc⟩
      · intro h'
        obtain ⟨⟨ha, hl⟩, hb⟩ := h'
        exact (hstep m a b (hinv ⟨hl, ha⟩) ha hone hmove).2 hb
  exact (hall hpath hok).1

end Path

/-- A computed run is a path whose moves were all allowed. -/
theorem path_of_play {step : μ → σ → Option σ} {ok : μ → σ → Prop}
    [∀ m a, Decidable (ok m a)] {ms : List μ} {s t : σ}
    (h : play step ok ms s = some t) :
    ∃ l, Path step s l t ∧ ∀ x ∈ l, ok x.1 x.2 := by
  have hall : ∀ (ms : List μ) {a : σ} {l : List (μ × σ)}, Path step s l a →
      (∀ x ∈ l, ok x.1 x.2) → play step ok ms a = some t →
      ∃ l, Path step s l t ∧ ∀ x ∈ l, ok x.1 x.2 := by
    intro ms
    induction ms with
    | nil =>
      intro a l hpath hl h
      cases h
      exact ⟨l, hpath, hl⟩
    | cons m ms ih =>
      intro a l hpath hl h
      rw [play] at h
      split at h
      · rename_i hok
        obtain ⟨b, hb, hrest⟩ := Option.bind_eq_some_iff.mp h
        exact ih (.snoc hpath hb) (List.forall_mem_cons.mpr ⟨hok, hl⟩) hrest
      · cases h
  exact hall ms (.nil s) (fun _ hx => absurd hx List.not_mem_nil) h

/-- Make the listed moves in order and keep the path. -/
def track (step : μ → σ → Option σ) (ok : μ → σ → Prop) [∀ m a, Decidable (ok m a)] :
    List μ → List (μ × σ) → σ → Option (List (μ × σ) × σ)
  | [], l, s => some (l, s)
  | m :: ms, l, s => if ok m s then (step m s).bind (track step ok ms ((m, s) :: l)) else none

theorem path_of_track {step : μ → σ → Option σ} {ok : μ → σ → Prop}
    [∀ m a, Decidable (ok m a)] {ms : List μ} {s a t : σ} {l l' : List (μ × σ)}
    (hpath : Path step s l a) (hl : ∀ x ∈ l, ok x.1 x.2)
    (h : track step ok ms l a = some (l', t)) :
    Path step s l' t ∧ ∀ x ∈ l', ok x.1 x.2 := by
  induction ms generalizing a l with
  | nil =>
    cases h
    exact ⟨hpath, hl⟩
  | cons m ms ih =>
    rw [track] at h
    split at h
    · rename_i hok
      obtain ⟨b, hb, hrest⟩ := Option.bind_eq_some_iff.mp h
      exact ih (.snoc hpath hb) (List.forall_mem_cons.mpr ⟨hok, hl⟩) hrest
    · cases h

end UserThreads.Runs
