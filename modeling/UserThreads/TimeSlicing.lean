import UserThreads.Beats
import UserThreads.RoundRobin
import Mathlib.Data.List.Rotate

/-!
Time slicing (`TEST2.C`). The first thread forks a few threads below its own priority and
ends; they print for ever and never call the library, so that only the timer takes the
processor from one of them. From then on they are dispatched in turn, the one forked first
first, whenever the timer fires.
-/
namespace UserThreads.TimeSlicing

open Threads LinkedCells Queue Runs MultilevelQueue

/-- `funcB`, `funcC`, `funcD` and `funcE`. -/
inductive Looper
  | B
  | C
  | D
  | E
deriving DecidableEq

/-- The number under which a function is forked; `funcA` is 0. -/
def Looper.func : Looper → ThreadFunc
  | .B => 1
  | .C => 2
  | .D => 3
  | .E => 4

def looperOf : ThreadFunc → Looper
  | 1 => .B
  | 2 => .C
  | 3 => .D
  | _ => .E

/-- A line that has been printed. -/
inductive Line
  | terminating
  | func (x : Looper)
  | inLoop (x : Looper)
deriving DecidableEq

/-- Where a thread is: before a statement. `forks` are the calls of `t_fork` that `funcA`
has still to make. -/
inductive Place
  | forks (rest : List Looper)
  | ends
  | func (x : Looper)
  | inLoop (x : Looper)
deriving DecidableEq

/-- `funcA` forks the loopers of the list; in the source these are B, C, D and E. The
shared value is what has been printed, the last line first. -/
def program (l : List Looper) : Program (List Line) Place where
  body f _ := if f = 0 then .forks l else .func (looperOf f)
  code printed
    | .forks (x :: rest) => .call (.tFork x.func .null 20) (.forks rest)
    | .forks [] => .act (.terminating :: printed) .ends
    | .ends => .ret
    | .func x => .act (.func x :: printed) (.inLoop x)
    | .inLoop x => .act (.inLoop x :: printed) (.inLoop x)

/-- The program starts: `main` creates the first thread with priority 30. -/
def Starts (l : List Looper) (w : World (List Line) Place) : Prop :=
  World.Opens (program l) [] [] w ∧ (w.sys.tcb 1).priority = 30

variable {l : List Looper} {g : Grain} {w w' w₀ : World (List Line) Place} {tick : Tick}

theorem looperOf_func (x : Looper) : looperOf x.func = x ∧ x.func ≠ 0 := by
  cases x <;> decide

theorem program_bare : (program l).Bare := by
  intro printed place op next hcode
  cases place with
  | forks rest =>
    cases rest with
    | nil => cases hcode
    | cons x rest =>
      cases hcode
      rfl
  | _ => cases hcode

section Refinement

variable {G L : Type} {P : Program G L} {u₀ u : World G L} {calls : List MainCall} {shared : G}

/-- The library with its queues in memory, its saved contexts and its signal mask refines
the stage: what a program without locks and semaphores sees of a run is a run of beats that
begins with the first thread alone in a ready queue. -/
theorem runs_are_beats (hP : P.Bare) (h₀ : World.Opens P calls shared u₀)
    (hrun : Run (World.step g P) EntersOwn u₀ u) :
    u₀.stage = {
      shared := shared
      on := none
      queues := Levels.append (fun _ => []) (.ready (u₀.stage.priority 1)) 1
      pos := fun _ => (none, P.body 0 .null)
      priority := u₀.stage.priority
      last := 1
      finished := ∅ } ∧ Relation.ReflTransGen (Beat P) u₀.stage u.stage := by
  refine ⟨h₀.stage, hrun.simulates (I := Staged P) World.stage h₀.staged ?_⟩
  intro tick a b ha hown hstep
  exact ⟨ha.step hP hstep, ha.seen hP hown hstep⟩

/-- `funcB` has been preempted in its loop, and `funcC` runs. -/
theorem runs_are_beats_sliced :
    ∃ w₀ w : World (List Line) Place, Starts [.B, .C] w₀ ∧ w.sys.on = some 3 ∧
      w.shared = [.inLoop .B, .func .B, .terminating] ∧
      Relation.ReflTransGen (Beat (program [.B, .C])) w₀.stage w.stage := by
  obtain ⟨w₀, w, h₀, hrun, hgood⟩ := exists_opened .statement EntersOwn (program [.B, .C])
    [] [] 30 (List.replicate 67 .run ++ [.expire] ++ List.replicate 3 .run)
    (fun w => w.sys.on = some 3 ∧ w.shared = [.inLoop .B, .func .B, .terminating])
    (by decide +kernel)
  obtain ⟨hon, hshared⟩ := of_decide_eq_true hgood
  exact ⟨w₀, w, h₀, hon, hshared, (runs_are_beats program_bare h₀.1 hrun).2⟩

end Refinement

section Rotation

/-- The threads of the first `n` loopers. -/
def loopers (n : ℕ) : List Tid := (List.range n).map fun i : ℕ => (i : ℤ) + 2

/-- The loopers take turns: `ds` are the threads dispatched so far. -/
def InTurn (n : ℕ) (ds : List Tid) : Prop :=
  ds = (List.range ds.length).map fun i : ℕ => ((i % n : ℕ) : ℤ) + 2

/-- Where `funcA` is when it has forked `n` loopers. -/
inductive Forking (l : List Looper) (n : ℕ) : Option Op × Place → Prop
  | forks : Forking l n (none, .forks (l.drop n))
  | called (x : Looper) (hx : l.drop n = x :: l.drop (n + 1)) :
      Forking l n (some (.tFork x.func .null 20), .forks (l.drop (n + 1)))
  | ends (hn : n = l.length) : Forking l n (none, .ends)

/-- Of the two levels, the higher one has at most the first thread, and the lower one has
the loopers in the order of their turns; `ds` are those dispatched so far. -/
structure Slicing (l : List Looper) (n : ℕ) (σ : Stage (List Line) Place) (ds : List Tid) :
    Prop where
  last : σ.last = n + 1
  count : n ≤ l.length
  forking : Forking l n (σ.pos 1)
  looping : ∀ t, 2 ≤ t → t ≤ σ.last → ∃ x, σ.pos t = (none, .func x) ∨ σ.pos t = (none, .inLoop x)
  high : σ.priority 1 = 30
  low : ∀ t, 2 ≤ t → t ≤ σ.last → σ.priority t = 20
  /-- the first thread has the processor, or is ready, until it has ended -/
  alive : 1 ∉ σ.finished → (σ.on = some 1 ∨ 1 ∈ σ.queues (.ready 30)) ∧ ds = []
  ended : 1 ∈ σ.finished → σ.pos 1 = (none, .ends)
  finished : ∀ t ∈ σ.finished, t = 1
  queues : ∀ q, q ≠ .ready 20 → ∀ t ∈ σ.queues q, q = .ready 30 ∧ t = 1
  turn : (σ.on = none ∨ σ.on = some 1) ∧ σ.queues (.ready 20) = (loopers n).rotate ds.length ∨
    ∃ t, σ.on = some t ∧ 2 ≤ t ∧ ds.getLast? = some t ∧
      σ.queues (.ready 20) ++ [t] = (loopers n).rotate ds.length
  slices : InTurn n ds

/-- Nothing is printed before `funcA` terminates, and a loop begins with its first line. -/
structure Printed (σ : Stage (List Line) Place) : Prop where
  begun : (σ.pos 1).2 ≠ .ends → σ.shared = []
  first : (σ.pos 1).2 = .ends → σ.shared.getLast? = some .terminating
  looping : ∀ t x, (σ.pos t).2 = .inLoop x → .func x ∈ σ.shared
  after : ∀ pre x post, σ.shared = pre ++ .inLoop x :: post → .func x ∈ post

variable {n : ℕ} {σ σ' : Stage (List Line) Place} {ds : List Tid} {t : Tid}

/-- The head of the queue is the one whose turn it is. -/
theorem head_of_rotate {rest : List Tid} {d : ℕ} (h : (loopers n).rotate d = t :: rest) :
    t = ((d % n : ℕ) : ℤ) + 2 ∧ (loopers n).rotate (d + 1) = rest ++ [t] := by
  have hlength : (loopers n).length = n := by simp [loopers]
  constructor
  · have hpos : 0 < ((loopers n).rotate d).length := by simp [h]
    have hget : ((loopers n).rotate d)[0] = t := by simp [h]
    rw [List.getElem_rotate] at hget
    rw [← hget]
    simp [loopers]
  · rw [← List.rotate_rotate, h]
    simp

theorem InTurn.next (h : InTurn n ds) : InTurn n (ds ++ [((ds.length % n : ℕ) : ℤ) + 2]) := by
  rw [InTurn, List.length_append, List.length_singleton, List.range_succ, List.map_append, ← h]
  rfl

/-- The thread on the processor is the first one or a looper. -/
theorem on_cases (hok : σ.Ok (program l)) (hon : σ.on = some t) :
    t = 1 ∨ 2 ≤ t ∧ t ≤ σ.last := by
  obtain ⟨hpos, hle⟩ := hok.running t hon
  rcases eq_or_lt_of_le hpos with heq | hlt
  · exact Or.inl heq.symm
  · exact Or.inr ⟨Int.add_one_le_of_lt hlt, hle⟩

/-- The only call is a `t_fork` of the first thread. -/
theorem Slicing.due_fork {op : Op} {place : Place} (h : Slicing l n σ ds)
    (hok : σ.Ok (program l)) (hon : σ.on = some t) (hpos : σ.pos t = (some op, place)) :
    t = 1 ∧ ∃ x, l.drop n = x :: l.drop (n + 1) ∧ op = .tFork x.func .null 20 ∧
      place = .forks (l.drop (n + 1)) := by
  rcases on_cases hok hon with rfl | ⟨h2, hle⟩
  · have hfork := h.forking
    rw [hpos] at hfork
    cases hfork with
    | called x hx => exact ⟨rfl, x, hx, rfl, rfl⟩
  · obtain ⟨x, hx | hx⟩ := h.looping t h2 hle <;>
      · rw [hpos] at hx
        cases hx

theorem ne_one (h2 : 2 ≤ t) : t ≠ 1 := by
  rintro rfl
  exact absurd h2 (by decide)

/-- A looper is at one of its `printf`s. -/
theorem Slicing.at_print {place : Place} (h : Slicing l n σ ds) (h2 : 2 ≤ t) (hle : t ≤ σ.last)
    (hpos : σ.pos t = (none, place)) : ∃ x, place = .func x ∨ place = .inLoop x := by
  obtain ⟨x, hx | hx⟩ := h.looping t h2 hle
  · rw [hpos] at hx
    cases hx
    exact ⟨x, Or.inl rfl⟩
  · rw [hpos] at hx
    cases hx
    exact ⟨x, Or.inr rfl⟩

/-- `funcA` prints when it has forked all loopers. -/
theorem Slicing.prints_first {place next : Place} {printed : List Line} (h : Slicing l n σ ds)
    (hpos : σ.pos 1 = (none, place))
    (hcode : (program l).code σ.shared place = .act printed next) :
    place = .forks [] ∧ next = .ends ∧ printed = .terminating :: σ.shared ∧ n = l.length := by
  have hfork := h.forking
  rw [hpos] at hfork
  cases hfork with
  | forks =>
    cases hdrop : l.drop n with
    | nil =>
      rw [hdrop] at hcode
      cases hcode
      exact ⟨rfl, rfl, rfl, le_antisymm h.count (List.drop_eq_nil_iff.mp hdrop)⟩
    | cons x rest =>
      rw [hdrop] at hcode
      cases hcode
  | ends => cases hcode

/-- The running thread goes to another place of its code. -/
theorem Slicing.act {place next : Place} {printed : List Line} (h : Slicing l n σ ds)
    (hok : σ.Ok (program l)) (hon : σ.on = some t) (hpos : σ.pos t = (none, place))
    (hcode : (program l).code σ.shared place = .act printed next) :
    Slicing l n { σ with
      shared := printed, pos := Function.update σ.pos t (none, next) } ds := by
  rcases on_cases hok hon with rfl | ⟨h2, hle⟩
  · have hother : ∀ t : Tid, 2 ≤ t → Function.update σ.pos 1 (none, next) t = σ.pos t :=
      fun t ht => Function.update_of_ne (ne_one ht) ..
    have hlooping : ∀ t, 2 ≤ t → t ≤ σ.last → ∃ x, Function.update σ.pos 1 (none, next) t =
        (none, .func x) ∨ Function.update σ.pos 1 (none, next) t = (none, .inLoop x) :=
      fun t ht hle => (hother t ht).symm ▸ h.looping t ht hle
    obtain ⟨-, rfl, -, hn⟩ := h.prints_first hpos hcode
    have hfirst : Function.update σ.pos 1 (none, Place.ends) 1 = (none, .ends) :=
      Function.update_self ..
    exact { h with
      forking := hfirst ▸ .ends hn
      looping := hlooping
      ended := fun _ => hfirst }
  · obtain ⟨x, hx⟩ := h.at_print h2 hle hpos
    have hnext : next = .inLoop x := by
      rcases hx with rfl | rfl <;>
        · cases hcode
          rfl
    have hfirst : Function.update σ.pos t (none, next) 1 = σ.pos 1 :=
      Function.update_of_ne (ne_one h2).symm ..
    have hforking : Forking l n (Function.update σ.pos t (none, next) 1) := by
      rw [hfirst]
      exact h.forking
    refine { h with
      forking := hforking
      looping := fun u hu hle => ?_
      ended := fun hover => hfirst.trans (h.ended hover) }
    by_cases hut : u = t
    · exact ⟨x, Or.inr (by simp [hut, hnext])⟩
    · simpa [Function.update_of_ne hut] using h.looping u hu hle

/-- The first thread forks the next looper. -/
theorem Slicing.fork {x : Looper} (h : Slicing l n σ ds) (hon : σ.on = some 1)
    (hx : l.drop n = x :: l.drop (n + 1))
    (hpos : σ.pos 1 = (some (.tFork x.func .null 20), .forks (l.drop (n + 1)))) :
    Slicing l (n + 1) { σ with
      queues := Levels.append σ.queues (.ready 20) (σ.last + 1)
      pos := Function.update (Function.update σ.pos 1 (none, .forks (l.drop (n + 1))))
        (σ.last + 1) (none, (program l).body x.func .null)
      priority := Function.update σ.priority (σ.last + 1) 20
      last := σ.last + 1 } ds := by
  have hnot : 1 ∉ σ.finished := by
    intro hover
    rw [h.ended hover] at hpos
    cases hpos
  have hds := (h.alive hnot).2
  subst hds
  have hlast : σ.last + 1 = (n : ℤ) + 2 := by
    rw [h.last]
    rfl
  have hne : (1 : Tid) ≠ σ.last + 1 := by
    rw [hlast]
    change (1 : ℤ) ≠ n + 2
    omega
  have hbody : (program l).body x.func .null = .func x := by
    simp [program, looperOf_func]
  have hcount : n + 1 ≤ l.length := by
    have hlength := congrArg List.length hx
    simp only [List.length_drop, List.length_cons] at hlength
    omega
  have hnew : ∀ t, t ≤ σ.last + 1 → t ≤ σ.last ∨ t = σ.last + 1 :=
    fun t ht => (lt_or_eq_of_le ht).imp_left Int.lt_add_one_iff.mp
  have hold : ∀ t, t ≤ σ.last → t ≠ σ.last + 1 := fun t ht => ne_of_lt (Int.lt_add_one_iff.mpr ht)
  refine ⟨?_, hcount, ?_, fun t h2 hle => ?_, ?_, fun t h2 hle => ?_, fun hnot => ?_,
    fun hover => absurd hover hnot, h.finished, fun q hq t ht => ?_, Or.inl ⟨Or.inr hon, ?_⟩, rfl⟩
  · exact hlast
  · have hforking : Forking l (n + 1) (Function.update (Function.update σ.pos 1
        (none, .forks (l.drop (n + 1)))) (σ.last + 1) (none, (program l).body x.func .null) 1) := by
      rw [Function.update_of_ne hne, Function.update_self]
      exact .forks
    exact hforking
  · rcases hnew t hle with hle | rfl
    · simpa [Function.update_of_ne (hold t hle), Function.update_of_ne (ne_one h2)] using
        h.looping t h2 hle
    · exact ⟨x, Or.inl (by simp [hbody])⟩
  · exact (Function.update_of_ne hne ..).trans h.high
  · rcases hnew t hle with hle | rfl
    · exact (Function.update_of_ne (hold t hle) ..).trans (h.low t h2 hle)
    · exact Function.update_self ..
  · exact ⟨Or.inl hon, rfl⟩
  · rcases mem_append_iff.mp ht with hmem | ⟨rfl, -⟩
    · exact h.queues q hq t hmem
    · exact absurd rfl hq
  · have hqueue : σ.queues (.ready 20) = loopers n := by
      rcases h.turn with ⟨-, hqueue⟩ | ⟨t, ht, h2, -⟩
      · simpa using hqueue
      · rw [hon] at ht
        cases ht
        exact absurd h2 (by decide)
    change Levels.append σ.queues (.ready 20) (σ.last + 1) (.ready 20) = _
    rw [Levels.append, Levels.set_self, hqueue, hlast]
    simp [loopers, List.range_succ]

/-- The timer takes the processor from a thread, or from the first one after its end. -/
theorem Slicing.preempt (h : Slicing l n σ ds) (hok : σ.Ok (program l))
    (ht : σ.on = some t ∨ σ.on = none ∧ t ∈ σ.finished) :
    Slicing l n { σ with
      on := none, queues := Levels.append σ.queues (.ready (σ.priority t)) t } ds := by
  have hone : t = 1 ∨ 2 ≤ t ∧ t ≤ σ.last ∧ σ.on = some t := by
    rcases ht with hon | ⟨-, hover⟩
    · exact (on_cases hok hon).imp_right fun hle => ⟨hle.1, hle.2, hon⟩
    · exact Or.inl (h.finished t hover)
  rcases hone with rfl | ⟨h2, hle, hon⟩
  · have hqueues : Levels.append σ.queues (.ready (σ.priority 1)) 1 =
        Levels.append σ.queues (.ready 30) 1 := by rw [h.high]
    have hkept : Levels.append σ.queues (.ready 30) 1 (.ready 20) = σ.queues (.ready 20) :=
      Levels.set_of_ne (by simp)
    have hwaits : ∀ q, q ≠ .ready 20 → ∀ t ∈ Levels.append σ.queues (.ready 30) 1 q,
        q = .ready 30 ∧ t = 1 := by
      intro q hq t ht
      rcases mem_append_iff.mp ht with hmem | hnew
      · exact h.queues q hq t hmem
      · exact hnew
    have hback : 1 ∈ Levels.append σ.queues (.ready 30) 1 (.ready 30) :=
      mem_append_iff.mpr (Or.inr ⟨rfl, rfl⟩)
    rw [hqueues]
    refine { h with
      alive := fun hnot => ⟨Or.inr hback, (h.alive hnot).2⟩
      queues := hwaits
      turn := Or.inl ⟨Or.inl rfl, hkept.trans ?_⟩ }
    rcases h.turn with ⟨-, hqueue⟩ | ⟨u, hu, h2, -⟩
    · exact hqueue
    · rcases ht with hon | ⟨hon, -⟩
      · rw [hon] at hu
        cases hu
        exact absurd h2 (by decide)
      · rw [hon] at hu
        cases hu
  · have hqueues : Levels.append σ.queues (.ready (σ.priority t)) t =
        Levels.append σ.queues (.ready 20) t := by rw [h.low t h2 hle]
    have hkept : ∀ q, q ≠ .ready 20 → Levels.append σ.queues (.ready 20) t q = σ.queues q :=
      fun q hq => Levels.set_of_ne hq
    have hstays : 1 ∉ σ.finished → 1 ∈ Levels.append σ.queues (.ready 20) t (.ready 30) := by
      intro hnot
      refine mem_append_iff.mpr (Or.inl ((h.alive hnot).1.resolve_left fun hone => ?_))
      rw [hon] at hone
      cases hone
      exact absurd h2 (by decide)
    rw [hqueues]
    refine { h with
      alive := fun hnot => ⟨Or.inr (hstays hnot), (h.alive hnot).2⟩
      queues := fun q hq u hu => h.queues q hq u (hkept q hq ▸ hu)
      turn := Or.inl ⟨Or.inl rfl, ?_⟩ }
    · change Levels.append σ.queues (.ready 20) t (.ready 20) = _
      rw [Levels.append, Levels.set_self]
      rcases h.turn with ⟨hnone | hone, -⟩ | ⟨u, hu, -, -, hqueue⟩
      · rw [hon] at hnone
        cases hnone
      · rw [hon] at hone
        cases hone
        exact absurd h2 (by decide)
      · rw [hon] at hu
        cases hu
        exact hqueue

/-- The only call is the next `t_fork` of `funcA`. -/
theorem Slicing.calls_fork {place next : Place} {op : Op} (h : Slicing l n σ ds)
    (hok : σ.Ok (program l)) (hon : σ.on = some t) (hpos : σ.pos t = (none, place))
    (hcode : (program l).code σ.shared place = .call op next) :
    t = 1 ∧ place ≠ .ends ∧ ∃ x, l.drop n = x :: l.drop (n + 1) ∧
      op = .tFork x.func .null 20 ∧ next = .forks (l.drop (n + 1)) := by
  rcases on_cases hok hon with rfl | ⟨h2, hle⟩
  · have hfork := h.forking
    rw [hpos] at hfork
    cases hfork with
    | forks =>
      cases hdrop : l.drop n with
      | nil =>
        rw [hdrop] at hcode
        cases hcode
      | cons x rest =>
        rw [hdrop] at hcode
        cases hcode
        have htail : rest = l.drop (n + 1) := by rw [← List.tail_drop, hdrop, List.tail_cons]
        exact ⟨rfl, by simp, x, htail ▸ rfl, rfl, htail ▸ rfl⟩
    | ends => cases hcode
  · obtain ⟨x, rfl | rfl⟩ := h.at_print h2 hle hpos <;> cases hcode

theorem Slicing.call {place next : Place} {op : Op} (h : Slicing l n σ ds)
    (hok : σ.Ok (program l)) (hon : σ.on = some t) (hpos : σ.pos t = (none, place))
    (hcode : (program l).code σ.shared place = .call op next) :
    Slicing l n { σ with pos := Function.update σ.pos t (some op, next) } ds := by
  obtain ⟨rfl, hover, x, hx, rfl, rfl⟩ := h.calls_fork hok hon hpos hcode
  have hother : ∀ t : Tid, 2 ≤ t → Function.update σ.pos 1
      (some (.tFork x.func .null 20), .forks (l.drop (n + 1))) t = σ.pos t :=
    fun t ht => Function.update_of_ne (ne_one ht) ..
  have hforking : Forking l n (Function.update σ.pos 1
      (some (.tFork x.func .null 20), .forks (l.drop (n + 1))) 1) := by
    rw [Function.update_self]
    exact .called x hx
  have hlooping : ∀ t, 2 ≤ t → t ≤ σ.last → ∃ y, Function.update σ.pos 1
      (some (.tFork x.func .null 20), .forks (l.drop (n + 1))) t = (none, .func y) ∨
      Function.update σ.pos 1
      (some (.tFork x.func .null 20), .forks (l.drop (n + 1))) t = (none, .inLoop y) :=
    fun t ht hle => (hother t ht).symm ▸ h.looping t ht hle
  exact { h with
    forking := hforking
    looping := hlooping
    ended := fun hend => by
      rw [h.ended hend] at hpos
      cases hpos
      exact absurd rfl hover }

/-- `funcA` returns. -/
theorem Slicing.finish {place : Place} (h : Slicing l n σ ds) (hok : σ.Ok (program l))
    (hon : σ.on = some t) (hpos : σ.pos t = (none, place))
    (hcode : (program l).code σ.shared place = .ret) :
    Slicing l n { σ with finished := insert t σ.finished } ds := by
  rcases on_cases hok hon with rfl | ⟨h2, hle⟩
  · have hover : place = .ends := by
      have hfork := h.forking
      rw [hpos] at hfork
      cases hfork with
      | forks =>
        cases hdrop : l.drop n with
        | nil =>
          rw [hdrop] at hcode
          cases hcode
        | cons x rest =>
          rw [hdrop] at hcode
          cases hcode
      | ends => rfl
    subst hover
    exact { h with
      alive := fun hnot => absurd (Set.mem_insert ..) hnot
      ended := fun _ => hpos
      finished := fun u hu => hu.elim id (h.finished u) }
  · obtain ⟨x, rfl | rfl⟩ := h.at_print h2 hle hpos <;> cases hcode

/-- Nothing but the processor changes hands, and the first thread leaves or comes. -/
theorem Slicing.first {on : Option Tid} {rest : List Tid} (h : Slicing l n σ ds)
    (hold : σ.on = none ∨ σ.on = some 1) (hon : on = none ∨ on = some 1)
    (halive : 1 ∉ σ.finished → on = some 1) (hrest : ∀ t ∈ rest, t = 1) :
    Slicing l n { σ with on := on, queues := Levels.set σ.queues (.ready 30) rest } ds := by
  have hqueue : σ.queues (.ready 20) = (loopers n).rotate ds.length := by
    rcases h.turn with ⟨-, hqueue⟩ | ⟨t, ht, h2, -⟩
    · exact hqueue
    · rcases hold with hnone | hone
      · rw [hnone] at ht
        cases ht
      · rw [hone] at ht
        cases ht
        exact absurd h2 (by decide)
  have hwaits : ∀ q, q ≠ .ready 20 → ∀ t ∈ Levels.set σ.queues (.ready 30) rest q,
      q = .ready 30 ∧ t = 1 := by
    intro q hq t ht
    by_cases h30 : q = .ready 30
    · subst h30
      rw [Levels.set_self] at ht
      exact ⟨rfl, hrest t ht⟩
    · rw [Levels.set_of_ne h30] at ht
      exact h.queues q hq t ht
  have hkept : Levels.set σ.queues (.ready 30) rest (.ready 20) = σ.queues (.ready 20) :=
    Levels.set_of_ne (by simp)
  exact { h with
    alive := fun hnot => ⟨Or.inl (halive hnot), (h.alive hnot).2⟩
    queues := hwaits
    turn := Or.inl ⟨hon, hkept.trans hqueue⟩ }

/-- A looper is dispatched, the one whose turn it is. -/
theorem Slicing.dispatch {on : Option Tid} {rest : List Tid} (h : Slicing l n σ ds)
    (hon : σ.on = none) (hhead : σ.queues (.ready 20) = t :: rest)
    (hhigh : ∀ q, 20 < q → σ.queues (.ready q) = [])
    (hnext : on = some t ∨ on = none ∧ t ∈ σ.finished) :
    Slicing l n { σ with on := on, queues := Levels.set σ.queues (.ready 20) rest }
      (ds ++ [t]) := by
  have hover : 1 ∈ σ.finished := by
    by_contra hnot
    rcases (h.alive hnot).1 with hone | hmem
    · rw [hon] at hone
      cases hone
    · rw [hhigh 30 (by decide)] at hmem
      cases hmem
  have hqueue : (loopers n).rotate ds.length = t :: rest := by
    rcases h.turn with ⟨-, hqueue⟩ | ⟨u, hu, -⟩
    · rw [← hqueue, hhead]
    · rw [hon] at hu
      cases hu
  obtain ⟨ht, hrotate⟩ := head_of_rotate hqueue
  have h2 : 2 ≤ t := by
    rw [ht]
    exact Int.le_add_of_nonneg_left (Int.natCast_nonneg _)
  obtain rfl : on = some t :=
    hnext.resolve_right fun hend => absurd (h.finished t hend.2) (ne_one h2)
  have hlength : (ds ++ [t]).length = ds.length + 1 := by simp
  have hturn : Levels.set σ.queues (.ready 20) rest (.ready 20) ++ [t] =
      (loopers n).rotate (ds ++ [t]).length := by
    rw [Levels.set_self, hlength, hrotate]
  refine { h with
    alive := fun hnot => absurd hover hnot
    queues := fun q hq u hu => h.queues q hq u ?_
    turn := Or.inr ⟨t, rfl, h2, by simp, hturn⟩
    slices := ht ▸ h.slices.next }
  have hkept : Levels.set σ.queues (.ready 20) rest q = σ.queues q := Levels.set_of_ne hq
  exact hkept ▸ hu

/-- What a beat does to the slices, when `ds'` are the threads dispatched after it. -/
theorem Slicing.beat {ds' : List Tid} (h : Slicing l n σ ds) (hok : σ.Ok (program l))
    (hbeat : Beat (program l) σ σ')
    (hds : ds' = ds ∧ (σ.queues (.ready 20)).length ≤ (σ'.queues (.ready 20)).length ∨
      ∃ t rest, σ.queues (.ready 20) = t :: rest ∧ σ'.queues (.ready 20) = rest ∧
        ds' = ds ++ [t]) : ∃ n', Slicing l n' σ' ds' := by
  have hsame : (σ.queues (.ready 20)).length ≤ (σ'.queues (.ready 20)).length → ds' = ds := by
    intro hle
    rcases hds with ⟨hds, -⟩ | ⟨t, rest, hhead, hrest, -⟩
    · exact hds
    · rw [hhead, hrest, List.length_cons] at hle
      omega
  cases hbeat with
  | act t place next printed hon hpos hcode =>
    rw [hsame le_rfl]
    exact ⟨n, h.act hok hon hpos hcode⟩
  | call t op place next hon hpos hcode =>
    rw [hsame le_rfl]
    exact ⟨n, h.call hok hon hpos hcode⟩
  | fork t f v p place hon hpos =>
    rw [hsame length_le_append]
    obtain ⟨rfl, x, hx, heq, rfl⟩ := h.due_fork hok hon hpos
    cases heq
    exact ⟨n + 1, h.fork hon hx hpos⟩
  | preempt t hon =>
    rw [hsame length_le_append]
    exact ⟨n, h.preempt hok (Or.inl hon)⟩
  | linger t hon hover =>
    rw [hsame length_le_append]
    refine ⟨n, ?_⟩
    have hpre := h.preempt hok (Or.inr ⟨hon, hover⟩)
    rwa [← hon] at hpre
  | finish t place hon hpos hcode =>
    rw [hsame le_rfl]
    exact ⟨n, h.finish hok hon hpos hcode⟩
  | leave t hon hover =>
    rw [hsame le_rfl]
    obtain rfl := h.finished t hover
    have hqueues : Levels.set σ.queues (.ready 30) (σ.queues (.ready 30)) = σ.queues :=
      Function.update_eq_self ..
    have hfirst : Slicing l n { σ with
        on := none, queues := Levels.set σ.queues (.ready 30) (σ.queues (.ready 30)) } ds :=
      h.first (Or.inr hon) (Or.inl rfl) (fun hnot => absurd hover hnot)
        fun u hu => (h.queues (.ready 30) (by simp) u hu).2
    rw [hqueues] at hfirst
    exact ⟨n, hfirst⟩
  | dispatch t p rest on hon hhead hhigh hnext =>
    have ht : t ∈ σ.queues (.ready p) := hhead ▸ List.mem_cons_self ..
    by_cases hp : QRef.ready p = .ready 20
    · cases hp
      rcases hds with ⟨-, hle⟩ | ⟨u, rest', hhead', -, rfl⟩
      · simp [hhead] at hle
      · rw [hhead] at hhead'
        cases hhead'
        exact ⟨n, h.dispatch hon hhead hhigh hnext⟩
    · obtain ⟨h30, rfl⟩ := h.queues _ hp t ht
      cases h30
      have hkept : Levels.set σ.queues (.ready 30) rest (.ready 20) = σ.queues (.ready 20) :=
        Levels.set_of_ne (by simp)
      rw [hsame (le_of_eq (congrArg List.length hkept.symm))]
      refine ⟨n, h.first (Or.inl hon) ?_ ?_ ?_⟩
      · exact hnext.elim Or.inr fun hend => Or.inl hend.1
      · exact fun hnot => hnext.resolve_right fun hend => hnot hend.2
      · exact fun u hu => (h.queues (.ready 30) (by simp) u (hhead ▸ List.mem_cons_of_mem _ hu)).2
  | made t lock place hon hpos | yield t place hon hpos | sleep t c place hon hpos
  | sigNone t c v place hon hpos | sigWake t c v place p u rest hon hpos
  | exit t v place hon hpos =>
    obtain ⟨-, x, -, heq, -⟩ := h.due_fork hok hon hpos
    cases heq

/-- A looper runs only when `funcA` has printed its line. -/
theorem Slicing.ends (h : Slicing l n σ ds) (hon : σ.on = some t) (h2 : 2 ≤ t) :
    (σ.pos 1).2 = .ends := by
  by_cases hover : 1 ∈ σ.finished
  · rw [h.ended hover]
  · obtain ⟨-, rfl⟩ := h.alive hover
    rcases h.turn with ⟨hnone | hone, -⟩ | ⟨u, -, -, hlast, -⟩
    · rw [hon] at hnone
      cases hnone
    · rw [hon] at hone
      cases hone
      exact absurd h2 (by decide)
    · cases hlast

/-- The line of a looper follows the line that its function begins with. -/
theorem after_cons {line : Line} {printed pre post : List Line} {x : Looper}
    (hold : ∀ pre x post, printed = pre ++ .inLoop x :: post → .func x ∈ post)
    (hline : ∀ x, line = .inLoop x → .func x ∈ printed)
    (h : line :: printed = pre ++ .inLoop x :: post) : .func x ∈ post := by
  cases pre with
  | nil =>
    simp only [List.nil_append, List.cons.injEq] at h
    exact h.2 ▸ hline x h.1
  | cons y pre =>
    simp only [List.cons_append, List.cons.injEq] at h
    exact hold pre x post h.2

theorem Printed.act {place next : Place} {printed : List Line} (hp : Printed σ)
    (h : Slicing l n σ ds) (hok : σ.Ok (program l)) (hon : σ.on = some t)
    (hpos : σ.pos t = (none, place))
    (hcode : (program l).code σ.shared place = .act printed next) :
    Printed { σ with shared := printed, pos := Function.update σ.pos t (none, next) } := by
  rcases on_cases hok hon with rfl | ⟨h2, hle⟩
  · obtain ⟨rfl, rfl, rfl, -⟩ := h.prints_first hpos hcode
    have hnil : σ.shared = [] := hp.begun (by simp [hpos])
    refine ⟨fun hnot => absurd (by simp) hnot, fun _ => by simp [hnil], fun u x hu => ?_,
      fun pre x post heq => after_cons hp.after (by simp) heq⟩
    have hne : u ≠ 1 := by
      rintro rfl
      simp at hu
    refine List.mem_cons_of_mem _ (hp.looping u x ?_)
    simpa [Function.update_of_ne hne] using hu
  · have hover := h.ends hon h2
    have hlast := hp.first hover
    have hother : (Function.update σ.pos t (none, next) 1).2 = .ends := by
      rwa [Function.update_of_ne (ne_one h2).symm]
    obtain ⟨x, hplace⟩ := h.at_print h2 hle hpos
    have hprints : ∃ line, printed = line :: σ.shared ∧ next = .inLoop x ∧
        (line = .func x ∨ line = .inLoop x ∧ place = .inLoop x) := by
      rcases hplace with rfl | rfl
      · cases hcode
        exact ⟨_, rfl, rfl, Or.inl rfl⟩
      · cases hcode
        exact ⟨_, rfl, rfl, Or.inr ⟨rfl, rfl⟩⟩
    obtain ⟨line, rfl, rfl, hline⟩ := hprints
    have hfunc : .func x ∈ line :: σ.shared := by
      rcases hline with rfl | ⟨-, rfl⟩
      · exact List.mem_cons_self ..
      · exact List.mem_cons_of_mem _ (hp.looping t x (by simp [hpos]))
    refine ⟨fun hnot => absurd hother hnot, fun _ => ?_, fun u y hu => ?_,
      fun pre y post heq => after_cons hp.after (fun y hy => ?_) heq⟩
    · cases hshared : σ.shared with
      | nil => simp [hshared] at hlast
      | cons head rest =>
        rw [hshared] at hlast
        simpa using hlast
    · by_cases hut : u = t
      · subst hut
        simp only [Function.update_self, Place.inLoop.injEq] at hu
        exact hu ▸ hfunc
      · refine List.mem_cons_of_mem _ (hp.looping u y ?_)
        simpa [Function.update_of_ne hut] using hu
    · subst hy
      rcases hline with hfalse | ⟨heq, rfl⟩
      · cases hfalse
      · cases heq
        exact hp.looping t _ (by simp [hpos])

theorem printed_nothing (hnil : σ.shared = []) (hover : (σ.pos 1).2 ≠ .ends)
    (hloop : ∀ t x, (σ.pos t).2 ≠ .inLoop x) : Printed σ :=
  ⟨fun _ => hnil, fun h => absurd h hover, fun t x h => absurd h (hloop t x),
    fun pre x post h => by simp [hnil] at h⟩

theorem Printed.beat (hp : Printed σ) (h : Slicing l n σ ds) (hok : σ.Ok (program l))
    (hbeat : Beat (program l) σ σ') : Printed σ' := by
  cases hbeat with
  | act t place next printed hon hpos hcode => exact hp.act h hok hon hpos hcode
  | call t op place next hon hpos hcode =>
    obtain ⟨rfl, hover, x, -, rfl, rfl⟩ := h.calls_fork hok hon hpos hcode
    have hnil : σ.shared = [] := hp.begun (by simpa [hpos] using hover)
    refine printed_nothing hnil (by simp) fun u y hu => ?_
    by_cases hone : u = 1
    · simp [hone] at hu
    · refine absurd (hp.looping u y ?_) (by simp [hnil])
      simpa [Function.update_of_ne hone] using hu
  | fork t f v p place hon hpos =>
    obtain ⟨rfl, x, hx, heq, rfl⟩ := h.due_fork hok hon hpos
    cases heq
    have hnil : σ.shared = [] := hp.begun (by simp [hpos])
    have hone : (1 : Tid) ≠ σ.last + 1 := by
      rintro heq
      exact absurd (heq ▸ hok.first) (not_le_of_gt (lt_next _))
    refine printed_nothing hnil (by simp [Function.update_of_ne hone]) fun u y hu => ?_
    by_cases hnew : u = σ.last + 1
    · simp [hnew, program, looperOf_func] at hu
    · by_cases hfirst : u = 1
      · simp [hfirst, Function.update_of_ne hone] at hu
      · refine absurd (hp.looping u y ?_) (by simp [hnil])
        simpa [Function.update_of_ne hnew, Function.update_of_ne hfirst] using hu
  | preempt | linger | finish | leave | dispatch => exact { hp with }
  | made t lock place hon hpos | yield t place hon hpos | sleep t c place hon hpos
  | sigNone t c v place hon hpos | sigWake t c v place p u rest hon hpos
  | exit t v place hon hpos =>
    obtain ⟨-, x, -, heq, -⟩ := h.due_fork hok hon hpos
    cases heq

/-- A move dispatches nobody from a level, which does not get shorter then, or its head. -/
theorem shift_dispatched {s s' : State} (h : Shift s s') (p : ℤ) :
    dispatched p s'.hist = dispatched p s.hist ∧
        (s.contents (.ready p)).length ≤ (s'.contents (.ready p)).length ∨
      ∃ t rest, s.contents (.ready p) = t :: rest ∧ s'.contents (.ready p) = rest ∧
        dispatched p s'.hist = dispatched p s.hist ++ [t] := by
  cases h with
  | keep _ hcontents hremoved => exact Or.inl ⟨hremoved _, by rw [hcontents]⟩
  | suspend q _ _ _ _ hcontents _ hhist =>
    refine Or.inl ⟨?_, ?_⟩
    · rw [dispatched, hhist]
      rfl
    · rw [hcontents]
      exact length_le_append
  | fork r _ _ _ hcontents _ _ _ hremoved =>
    refine Or.inl ⟨hremoved _, ?_⟩
    rw [hcontents]
    exact length_le_append
  | wake q r t rest _ hq _ _ _ hcontents _ hhist =>
    refine Or.inl ⟨?_, ?_⟩
    · rw [dispatched, hhist]
      exact if_neg (hq p)
    · have hkept : Levels.set s.contents q rest (.ready p) = s.contents (.ready p) :=
        Levels.set_of_ne (hq p).symm
      rw [hcontents, ← hkept]
      exact length_le_append
  | dispatch y t rest _ _ hhead _ hcontents _ _ hremoved =>
    by_cases hy : y = p
    · subst hy
      refine Or.inr ⟨t, rest, hhead, by rw [hcontents, Levels.set_self], ?_⟩
      exact (hremoved _).trans (if_pos rfl)
    · refine Or.inl ⟨(hremoved _).trans (if_neg (by simpa using hy)), ?_⟩
      rw [hcontents, Levels.set_of_ne (by simpa using Ne.symm hy)]

theorem dispatched_step {G L : Type} {P : Program G L} {u u' : World G L} (h : Staged P u)
    (hstep : u.step g P tick = some u') (p : ℤ) :
    dispatched p u'.sys.hist = dispatched p u.sys.hist ∧
        (u.stage.queues (.ready p)).length ≤ (u'.stage.queues (.ready p)).length ∨
      ∃ t rest, u.stage.queues (.ready p) = t :: rest ∧ u'.stage.queues (.ready p) = rest ∧
        dispatched p u'.sys.hist = dispatched p u.sys.hist ++ [t] := by
  have hshift : ∀ {m s}, Threads.step g m u.sys = some s → Shift u.sys s :=
    fun hmove => h.hosted.calm.unjoined.shift (step_trans hmove)
  cases World.goes hstep with
  | act => exact Or.inl ⟨rfl, le_rfl⟩
  | expire s hmove | call _ _ s _ _ hmove | ret s _ _ hmove | exec s _ hmove =>
    exact shift_dispatched (hshift hmove) p

theorem Starts.slicing (h : Starts l w) :
    Slicing l 0 w.stage (dispatched 20 w.sys.hist) ∧ Printed w.stage := by
  obtain ⟨hopens, hprio⟩ := h
  have hprio' : w.stage.priority 1 = 30 := hprio
  have hstage := hopens.stage
  have hlast : w.stage.last = 1 := congrArg Stage.last hstage
  have hover : w.stage.finished = ∅ := congrArg Stage.finished hstage
  have hon : w.stage.on = none := congrArg Stage.on hstage
  have hpos : w.stage.pos = fun _ => (none, .forks l) := congrArg Stage.pos hstage
  have hshared : w.stage.shared = [] := congrArg Stage.shared hstage
  have hqueues : w.stage.queues = Levels.append (fun _ => []) (.ready 30) 1 :=
    (congrArg Stage.queues hstage).trans (by rw [hprio'])
  have hnone : dispatched 20 w.sys.hist = [] := by
    obtain ⟨f, v, p, hb⟩ := hopens.initial.begun
    rw [dispatched, hb.hist]
    rfl
  have hfew : ∀ t : Tid, 2 ≤ t → t ≤ w.stage.last → False :=
    fun t h2 hle => absurd (h2.trans (hlast ▸ hle)) (by decide)
  rw [hnone]
  refine ⟨⟨hlast, Nat.zero_le _, ?_, fun t h2 hle => (hfew t h2 hle).elim, hprio',
    fun t h2 hle => (hfew t h2 hle).elim, fun _ => ⟨Or.inr ?_, rfl⟩, fun hend => ?_,
    fun t hend => ?_, fun q hq t ht => ?_, Or.inl ⟨Or.inl hon, ?_⟩, rfl⟩,
    printed_nothing hshared (by simp [hpos]) (by simp [hpos])⟩
  · rw [hpos]
    exact .forks
  · rw [hqueues]
    exact mem_append_iff.mpr (Or.inr ⟨rfl, rfl⟩)
  · rw [hover] at hend
    cases hend
  · rw [hover] at hend
    cases hend
  · rw [hqueues] at ht
    exact (mem_append_iff.mp ht).resolve_left List.not_mem_nil
  · rw [hqueues, Levels.append, Levels.set_of_ne (by simp)]
    rfl

theorem slicing_of_run (h₀ : Starts l w₀) (hrun : Run (World.step g (program l)) EntersOwn w₀ w) :
    (∃ n, Slicing l n w.stage (dispatched 20 w.sys.hist)) ∧ Printed w.stage := by
  have hrule := h₀.1.observed id (I := fun w => Staged (program l) w ∧
    (∃ n, Slicing l n w.stage (dispatched 20 w.sys.hist)) ∧ Printed w.stage) program_bare hrun
    (fun _ _ _ => id) (fun _ _ => id) ⟨h₀.1.staged, ⟨0, h₀.slicing.1⟩, h₀.slicing.2⟩
  refine (hrule ?_ ?_).2.2
  · rintro tick a b hstep hsame ⟨hstaged, ⟨n, hslicing⟩, hprinted⟩
    have hsame' : b.stage = a.stage := hsame
    have hdispatched : dispatched 20 b.sys.hist = dispatched 20 a.sys.hist := by
      rcases dispatched_step hstaged hstep 20 with ⟨hkept, -⟩ | ⟨t, rest, hhead, hrest, -⟩
      · exact hkept
      · rw [hsame', hhead] at hrest
        simp at hrest
    rw [hdispatched, hsame']
    exact ⟨hstaged.step program_bare hstep, ⟨n, hslicing⟩, hprinted⟩
  · rintro tick a b hstep - hok hbeat - ⟨hstaged, ⟨n, hslicing⟩, hprinted⟩
    exact ⟨hstaged.step program_bare hstep,
      hslicing.beat hok hbeat (dispatched_step hstaged hstep 20), hprinted.beat hslicing hok hbeat⟩

/-- Whenever the timer fires, as long as each thread enters its own function, the loopers are
dispatched in turn: the threads dispatched from level 20 are 2, 3, .. up to the last looper,
then 2 again, and so on. The first of them is dispatched when `funcA` has forked them all, has
printed its line and has ended; whoever of them runs is the one dispatched last, and none prints
from its loop before it has printed its first line. -/
theorem slices_rotate (h₀ : Starts l w₀)
    (hrun : Run (World.step g (program l)) EntersOwn w₀ w) :
    InTurn l.length (dispatched 20 w.sys.hist) ∧
      (dispatched 20 w.sys.hist ≠ [] → w.sys.Ended 1 ∧ w.sys.gThreadID = l.length + 1 ∧
        w.shared.getLast? = some .terminating) ∧
      (∀ t, 2 ≤ t → w.sys.on = some t → (dispatched 20 w.sys.hist).getLast? = some t) ∧
      ∀ pre x post, w.shared = pre ++ .inLoop x :: post → .func x ∈ post := by
  obtain ⟨⟨n, hs⟩, hp⟩ := slicing_of_run h₀ hrun
  have hover : dispatched 20 w.sys.hist ≠ [] → 1 ∈ w.stage.finished :=
    fun hsome => by_contra fun hnot => hsome (hs.alive hnot).2
  have hall : dispatched 20 w.sys.hist ≠ [] → n = l.length := by
    intro hsome
    have hfork := hs.forking
    rw [hs.ended (hover hsome)] at hfork
    cases hfork with
    | ends hn => exact hn
  refine ⟨?_, fun hsome => ⟨hover hsome, ?_, hp.first ?_⟩, fun t h2 hon => ?_, hp.after⟩
  · by_cases hnil : dispatched 20 w.sys.hist = []
    · rw [hnil]
      rfl
    · exact hall hnil ▸ hs.slices
  · exact hall hsome ▸ hs.last
  · rw [hs.ended (hover hsome)]
  · rcases hs.turn with ⟨hnone | hone, -⟩ | ⟨u, hu, -, hlast, -⟩
    · rw [show w.stage.on = some t from hon] at hnone
      cases hnone
    · rw [show w.stage.on = some t from hon] at hone
      cases hone
      exact absurd h2 (by decide)
    · rw [show w.stage.on = some t from hon] at hu
      cases hu
      exact hlast

/-- Two loopers: the first one has been preempted, then the second one, and the first one
runs again. -/
theorem slices_rotate_twice :
    ∃ w₀ w : World (List Line) Place, Starts [.B, .C] w₀ ∧
      dispatched 20 w.sys.hist = [2, 3, 2] ∧ InTurn 2 (dispatched 20 w.sys.hist) := by
  obtain ⟨w₀, w, h₀, hrun, hgood⟩ := exists_opened .statement EntersOwn (program [.B, .C])
    [] [] 30 (List.replicate 67 .run ++ [.expire] ++ List.replicate 5 .run ++ [.expire] ++
      List.replicate 3 .run) (fun w => dispatched 20 w.sys.hist = [2, 3, 2]) (by decide +kernel)
  exact ⟨w₀, w, h₀, of_decide_eq_true hgood, (slices_rotate h₀ hrun).1⟩

end Rotation

end UserThreads.TimeSlicing
