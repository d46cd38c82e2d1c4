import UserThreads.CriticalSections
import UserThreads.Executions

/-!
The food services problem of `TEST4.C`: cooks and students share a stack of
burgers. Semaphore 1 is `full`, semaphore 2 is `empty`, and lock 0 is `mutex`.
Every permit of `full` is a burger in the buffer and every permit of `empty` a
free slot, where a permit may be at the semaphore or with a thread on its way;
two weights of the places of the threads say with whom.

`inserted` and `removed` list the burgers in the order of `Insert_Item` and
`Remove_Item`, and `serial` numbers the insertions. The code reads none of them.
-/
namespace UserThreads.BoundedBuffer

open Threads Runs Tallies

structure Burger where
  id : ℤ
  serial : ℕ
deriving DecidableEq

structure Kitchen where
  buffer : ℤ → Burger
  bufferIndex : ℤ
  globalCounter : ℤ
  inserted : List Burger
  removed : List Burger

/-- The places in the bodies; a place stands before the statement it is named after.
`Insert_Item` stores the item and then moves the index, `Remove_Item` moves the index and
then loads the item. -/
inductive Place
  /-- `funcA`, with the functions that are left to fork and their priorities -/
  | funcA (crew : List (ThreadFunc × ℤ))
  | pEmpty
  | acquireP
  | produceItem
  | insertItem (item : ℤ)
  | insertIndex
  | releaseP
  | vFull
  | pFull
  | acquireC
  | removeIndex
  | removeItem
  | consumeItem (item : ℤ)
  | releaseC
  | vEmpty
deriving DecidableEq

namespace Kitchen

variable (g : Kitchen)

/-- `globalCounter` after `Produce_Item`, which returns it. -/
def produced : ℤ := if g.globalCounter < 50000 then g.globalCounter + 1 else 0

/-- The burger that `Insert_Item` stores. -/
def burger (item : ℤ) : Burger := ⟨item, g.inserted.length⟩

def insertItem (item : ℤ) : Kitchen :=
  { g with buffer := Function.update g.buffer g.bufferIndex (g.burger item)
           inserted := g.burger item :: g.inserted }

def removeItem : Kitchen := { g with removed := g.buffer g.bufferIndex :: g.removed }

/-- The first `n` slots of the buffer. -/
def slots (n : ℕ) : List Burger := (List.range n).map fun k : ℕ => g.buffer k

end Kitchen

/-- The program: function 1 is `Producer`, function 2 is `Consumer`, and the others fork a
crew. -/
def program (crew : List (ThreadFunc × ℤ)) : Program Kitchen Place where
  body f _ := match f with
    | 1 => .pEmpty
    | 2 => .pFull
    | _ => .funcA crew
  code g
    | .funcA [] => .ret
    | .funcA ((f, priority) :: rest) => .call (.tFork f .null priority) (.funcA rest)
    | .pEmpty => .call (.semaphoreP 2) .acquireP
    | .acquireP => .call (.lockAcquire 0) .produceItem
    | .produceItem => .act { g with globalCounter := g.produced } (.insertItem g.produced)
    | .insertItem item => .act (g.insertItem item) .insertIndex
    | .insertIndex => .act { g with bufferIndex := g.bufferIndex + 1 } .releaseP
    | .releaseP => .call (.lockRelease 0) .vFull
    | .vFull => .call (.semaphoreV 1) .pEmpty
    | .pFull => .call (.semaphoreP 1) .acquireC
    | .acquireC => .call (.lockAcquire 0) .removeIndex
    | .removeIndex => .act { g with bufferIndex := g.bufferIndex - 1 } .removeItem
    | .removeItem => .act g.removeItem (.consumeItem (g.buffer g.bufferIndex).id)
    | .consumeItem _ => .act g .releaseC
    | .releaseC => .call (.lockRelease 0) .vEmpty
    | .vEmpty => .call (.semaphoreV 2) .pFull

/-- What `main` creates for a buffer of `X` items. -/
def objects (X : ℕ) : List MainCall := [.lock, .sem 0, .sem X]

/-- The values of the shared variables when the program is loaded. -/
def opened : Kitchen where
  buffer := fun _ => ⟨0, 0⟩
  bufferIndex := 0
  globalCounter := 0
  inserted := []
  removed := []

/-- The places from the return of `lock_acquire(mutex)` to the call of `lock_release(mutex)`. -/
def Place.inMutex : Place → Bool
  | .produceItem | .insertItem _ | .insertIndex | .releaseP => true
  | .removeIndex | .removeItem | .consumeItem _ | .releaseC => true
  | _ => false

/-- The places that are reached only from the return of `lock_acquire(mutex)`, and those
that are reached only from these. -/
def Place.isEntry : Place → Bool
  | .produceItem | .removeIndex => true
  | _ => false

def Place.isInner : Place → Bool
  | .insertItem _ | .insertIndex | .removeItem => true
  | _ => false

/-- The thread is inside the mutex. -/
def Inside (w : World Kitchen Place) (t : Tid) : Prop :=
  (w.threads t).inMutex = true ∧ w.sys.point t = [.user]

section Weights

/-- The permits of `full` that the threads have: to take a burger, or for one put in. -/
def fullWeight : Option Threads.Op × Place → ℤ
  | (op, .acquireC) => if op = some (.semaphoreP 1) then 0 else 1
  | (op, .pEmpty) => if op = some (.semaphoreV 1) then 1 else 0
  | (_, .removeIndex) | (_, .releaseP) | (_, .vFull) => 1
  | _ => 0

/-- The permits of `empty` that the threads have: to fill a slot, or for one cleared. -/
def emptyWeight : Option Threads.Op × Place → ℤ
  | (op, .acquireP) => if op = some (.semaphoreP 2) then 0 else 1
  | (op, .pFull) => if op = some (.semaphoreV 2) then 1 else 0
  | (_, .produceItem) | (_, .insertItem _) | (_, .insertIndex) => 1
  | (_, .removeItem) | (_, .consumeItem _) | (_, .releaseC) | (_, .vEmpty) => 1
  | _ => 0

/-- The slot at `bufferIndex` is filled. -/
def midway (x : Option Threads.Op × Place) : ℤ :=
  if x.2 = .insertIndex ∨ x.2 = .removeItem then 1 else 0

end Weights

variable {X : ℕ} {crew : List (ThreadFunc × ℤ)} {g : Grain} {w w' w₀ : World Kitchen Place}
  {tick : Tick} {own : Prop}

theorem program_plain : (program crew).Plain := by
  intro shared place op next h
  cases place with
  | funcA rest =>
    cases rest <;> cases h
    rfl
  | _ => cases h; try rfl

theorem fullWeight_nonneg (x : Option Threads.Op × Place) : 0 ≤ fullWeight x := by
  unfold fullWeight
  split <;> try split
  all_goals decide

theorem emptyWeight_nonneg (x : Option Threads.Op × Place) : 0 ≤ emptyWeight x := by
  unfold emptyWeight
  split <;> try split
  all_goals decide

theorem body_cases (crew : List (ThreadFunc × ℤ)) (f : ThreadFunc) (v : AnyPtr) :
    (program crew).body f v = .pEmpty ∨
    (program crew).body f v = .pFull ∨ (program crew).body f v = .funcA crew := by
  unfold program
  dsimp only
  split
  · exact Or.inl rfl
  · exact Or.inr (Or.inl rfl)
  · exact Or.inr (Or.inr rfl)

/-- A thread that begins has no permits. -/
theorem body_weight (crew : List (ThreadFunc × ℤ)) (f : ThreadFunc) (v : AnyPtr) :
    fullWeight (none, (program crew).body f v) = 0 ∧
      emptyWeight (none, (program crew).body f v) = 0 ∧
      midway (none, (program crew).body f v) = 0 := by
  rcases body_cases crew f v with h | h | h <;> rw [h] <;> exact ⟨rfl, rfl, rfl⟩

/-- In every move the index keeps step with the permits of both semaphores. -/
theorem moves_permits {s s' : Kitchen} {x y : Option Threads.Op × Place} {d : SemId → ℤ}
    (p : SemId → ℤ) (h : Moves (program crew) own s s' x y d) :
    s'.bufferIndex - (p 1 + d 1) + fullWeight x = s.bufferIndex - p 1 + fullWeight y ∧
      X - s'.bufferIndex - (p 2 + d 2) + emptyWeight x =
        X - s.bufferIndex - p 2 + emptyWeight y := by
  cases h with
  | stay x hshared => simp [hshared]
  | act place next hcode =>
    cases place with
    | funcA rest => cases rest <;> cases hcode
    | _ =>
      cases hcode <;>
        simp [fullWeight, emptyWeight, Kitchen.insertItem, Kitchen.removeItem] <;> omega
  | call op place next hcode hshared =>
    subst hshared
    cases place with
    | funcA rest =>
      cases rest <;> cases hcode
      simp [fullWeight, emptyWeight]
    | _ => cases hcode <;> simp [fullWeight, emptyWeight]
  | routine op before place next hcode hop hshared =>
    subst hshared
    cases place with
    | funcA rest =>
      cases rest <;> cases hcode
      simp [fullWeight, emptyWeight, Op.posts]
    | _ => cases hcode <;> simp [fullWeight, emptyWeight, Op.posts] <;> omega
  | start f f' v hown hshared =>
    subst hshared
    simp [body_weight]

/-- A fork gives the new thread no permits. -/
theorem forks_permits {f : ThreadFunc} {v : AnyPtr} {q : ℤ} {before : Kitchen}
    {place next : Place} (h : (program crew).code before place = .call (.tFork f v q) next) :
    fullWeight (none, next) = fullWeight (some (.tFork f v q), next) ∧
      emptyWeight (none, next) = emptyWeight (some (.tFork f v q), next) ∧
      midway (none, next) = 0 := by
  cases place with
  | funcA rest =>
    cases rest <;> cases h
    exact ⟨rfl, rfl, rfl⟩
  | _ => cases h

theorem program_section : (program crew).Section (·.isEntry = true) (·.isInner = true) where
  act shared place shared' next h hnext := by
    cases place with
    | funcA rest => cases rest <;> cases h
    | _ => cases h <;> simp_all [Place.isEntry, Place.isInner]
  call shared place op next h := by
    cases place with
    | funcA rest =>
      cases rest <;> cases h
      simp [Place.isEntry, Place.isInner]
    | _ => cases h <;> simp [Place.isEntry, Place.isInner]
  ret shared place h := by
    cases place with
    | funcA rest => simp [Place.isEntry, Place.isInner]
    | _ => cases h
  body f v := by
    rcases body_cases crew f v with h | h | h <;>
      simp [h, Place.isEntry, Place.isInner]

/-- Only a thread inside the section can be midway. -/
theorem midway_outside (x : Option Threads.Op × Place) (hx : ¬ x.2.isInner = true) :
    midway x = 0 := by
  obtain ⟨op, place⟩ := x
  cases place <;> first | rfl | exact absurd rfl hx

theorem inMutex_of_isInner {place : Place} (h : place.isInner = true) : place.inMutex = true := by
  cases place <;> first | rfl | cases h

theorem slots_succ (g : Kitchen) (n : ℕ) : g.slots (n + 1) = g.slots n ++ [g.buffer n] := by
  simp [Kitchen.slots, List.range_succ]

/-- The first `m` slots hold what has been inserted and not removed. -/
def Stock (g : Kitchen) (m : ℤ) : Prop :=
  ∃ n : ℕ, n = m ∧ g.inserted.Perm (g.removed ++ g.slots n)

theorem Stock.keep {k k' : Kitchen} {m m' : ℤ} (h : Stock k m) (hbuffer : k'.buffer = k.buffer)
    (hinserted : k'.inserted = k.inserted) (hremoved : k'.removed = k.removed) (hm : m' = m) :
    Stock k' m' := by
  obtain ⟨n, hn, hperm⟩ := h
  refine ⟨n, hn.trans hm.symm, ?_⟩
  rw [hinserted, hremoved, Kitchen.slots, hbuffer]
  exact hperm

/-- `Insert_Item` stores above what is there. -/
theorem Stock.insert {k : Kitchen} (h : Stock k k.bufferIndex) (item : ℤ) :
    Stock (k.insertItem item) (k.bufferIndex + 1) := by
  obtain ⟨n, hn, hperm⟩ := h
  have hslots : (k.insertItem item).slots n = k.slots n := by
    refine List.map_congr_left fun j hj => ?_
    have hlt := List.mem_range.mp hj
    exact Function.update_of_ne (by omega) ..
  refine ⟨n + 1, by omega, ?_⟩
  have htop : (k.insertItem item).buffer n = k.burger item := by
    simp [Kitchen.insertItem, hn]
  rw [slots_succ, hslots, htop, ← List.append_assoc]
  exact (hperm.cons _).trans (List.perm_append_singleton ..).symm

/-- `Remove_Item` loads the last item. -/
theorem Stock.remove {k : Kitchen} (h : Stock k (k.bufferIndex + 1)) (hk : k.inserted.Nodup)
    (hindex : 0 ≤ k.bufferIndex) :
    Stock k.removeItem k.bufferIndex ∧ k.buffer k.bufferIndex ∈ k.inserted ∧
      k.buffer k.bufferIndex ∉ k.removed := by
  obtain ⟨n', hn', hperm⟩ := h
  obtain ⟨n, rfl⟩ : ∃ n : ℕ, n' = n + 1 := ⟨k.bufferIndex.toNat, by omega⟩
  have hn : (n : ℤ) = k.bufferIndex := by omega
  rw [slots_succ, hn] at hperm
  have hnodup := hperm.nodup_iff.mp hk
  refine ⟨⟨n, hn, ?_⟩, hperm.mem_iff.mpr (by simp), fun hmem => ?_⟩
  · refine hperm.trans ?_
    rw [← List.append_assoc]
    exact List.perm_append_singleton ..
  · exact (List.nodup_append.mp hnodup).2.2 _ hmem _ (by simp) rfl

/-- No two insertions have the same number. -/
structure Numbered (g : Kitchen) : Prop where
  serial : ∀ b ∈ g.inserted, b.serial < g.inserted.length
  nodup : g.inserted.Nodup

theorem Numbered.insert {k k' : Kitchen} (h : Numbered k) (item : ℤ)
    (hinserted : k'.inserted = k.burger item :: k.inserted) : Numbered k' := by
  refine ⟨fun b hb => ?_, ?_⟩
  · rw [hinserted] at hb ⊢
    rw [List.length_cons]
    rcases List.mem_cons.mp hb with rfl | hb
    · exact Nat.lt_succ_self _
    · exact Nat.lt_succ_of_lt (h.serial b hb)
  · rw [hinserted]
    exact List.nodup_cons.mpr ⟨fun hmem => Nat.lt_irrefl _ (h.serial _ hmem), h.nodup⟩

theorem moves_inserted {s s' : Kitchen} {x y : Option Threads.Op × Place} {d : SemId → ℤ}
    (h : Moves (program crew) own s s' x y d) :
    s'.inserted = s.inserted ∨ ∃ item, s'.inserted = s.burger item :: s.inserted := by
  cases h with
  | stay _ hshared | call _ _ _ _ hshared | routine _ _ _ _ _ _ hshared | start _ _ _ _ hshared =>
    exact Or.inl (by rw [hshared])
  | act place next hcode =>
    cases place with
    | funcA rest => cases rest <;> cases hcode
    | insertItem item =>
      cases hcode
      exact Or.inr ⟨item, rfl⟩
    | _ => cases hcode <;> exact Or.inl rfl

/-- The account of the buffer. -/
structure Stocked (X : ℕ) (w : World Kitchen Place) : Prop where
  full : w.shared.bufferIndex - w.sys.permits 1 - w.total fullWeight = 0
  empty : X - w.shared.bufferIndex - w.sys.permits 2 - w.total emptyWeight = 0
  values : ∀ i v, w.sys.semaphores i = some v → 0 ≤ v
  stock : Stock w.shared (w.shared.bufferIndex + w.total midway)
  numbered : Numbered w.shared

/-- The library and the mutex. -/
abbrev Kept (crew : List (ThreadFunc × ℤ)) : World Kitchen Place → Prop :=
  Secured (program crew) (·.isEntry = true) (·.isInner = true)

theorem code_wait {shared : Kitchen} {place next : Place} {i : SemId}
    (h : (program crew).code shared place = .call (.semaphoreP i) next) :
    i = 2 ∧ next = .acquireP ∨ i = 1 ∧ next = .acquireC := by
  cases place with
  | funcA rest => cases rest <;> cases h
  | pEmpty =>
    cases h
    exact Or.inl ⟨rfl, rfl⟩
  | pFull =>
    cases h
    exact Or.inr ⟨rfl, rfl⟩
  | _ => cases h

/-- The index is what the permits of `full` are, and a thread that has one knows that
it is positive. -/
theorem Stocked.index_ge (hs : Stocked X w) (hk : Kept crew w) :
    0 ≤ w.shared.bufferIndex ∧ ∀ t, w.sys.Forked t → t ∉ w.sys.contents (.sem 1) →
      fullWeight (w.pos t) ≤ w.shared.bufferIndex := by
  have hfull := hs.full
  have hwait : ∀ shared place next,
      (program crew).code shared place = .call (.semaphoreP 1) next →
        1 ≤ fullWeight (none, next) := by
    intro shared place next hcode
    rcases code_wait hcode with ⟨hi, -⟩ | ⟨-, rfl⟩
    · cases hi
    · exact le_rfl
  obtain ⟨hnonneg, hle⟩ := hk.hosted.permits_nonneg fullWeight_nonneg hwait (hs.values 1)
  refine ⟨by omega, fun t hforked hnot => ?_⟩
  have hone := hle t hforked hnot
  omega

/-- The free slots are what the permits of `empty` are. -/
theorem Stocked.index_le (hs : Stocked X w) (hk : Kept crew w) :
    w.shared.bufferIndex ≤ X ∧ ∀ t, w.sys.Forked t → t ∉ w.sys.contents (.sem 2) →
      emptyWeight (w.pos t) ≤ X - w.shared.bufferIndex := by
  have hempty := hs.empty
  have hwait : ∀ shared place next,
      (program crew).code shared place = .call (.semaphoreP 2) next →
        1 ≤ emptyWeight (none, next) := by
    intro shared place next hcode
    rcases code_wait hcode with ⟨-, rfl⟩ | ⟨hi, -⟩
    · exact le_rfl
    · cases hi
  obtain ⟨hnonneg, hle⟩ := hk.hosted.permits_nonneg emptyWeight_nonneg hwait (hs.values 2)
  refine ⟨by omega, fun t hforked hnot => ?_⟩
  have hone := hle t hforked hnot
  omega

/-- In every statement the filled slots keep step with the index; `n` threads are midway. -/
theorem act_stock {s s' : Kitchen} {place next : Place} {n n' : ℤ}
    (hcode : (program crew).code s place = .act s' next)
    (hn : n' + midway (none, place) = n + midway (none, next))
    (hinner : place.isInner = true → n = midway (none, place))
    (hstock : Stock s (s.bufferIndex + n)) (hnodup : s.inserted.Nodup)
    (hindex : 0 ≤ s.bufferIndex) : Stock s' (s'.bufferIndex + n') := by
  cases place with
  | funcA rest => cases rest <;> cases hcode
  | produceItem | consumeItem =>
    cases hcode
    simp only [midway, reduceCtorEq, or_self, if_false, Int.add_zero] at hn
    exact hstock.keep rfl rfl rfl (by rw [hn])
  | insertIndex | removeIndex =>
    cases hcode
    simp only [midway, reduceCtorEq, or_self, or_false, or_true, if_true, if_false,
      Int.add_zero] at hn
    exact hstock.keep rfl rfl rfl (by dsimp only; omega)
  | insertItem item =>
    cases hcode
    obtain rfl : n = 0 := hinner rfl
    simp only [midway, reduceCtorEq, or_self, or_false, if_true, if_false, Int.add_zero,
      Int.zero_add] at hn
    subst hn
    exact Stock.insert (by simpa using hstock) item
  | removeItem =>
    cases hcode
    obtain rfl : n = 1 := hinner rfl
    simp only [midway, reduceCtorEq, or_self, or_true, if_true, if_false, Int.add_zero,
      add_eq_right] at hn
    subst hn
    rw [show s.removeItem.bufferIndex + 0 = s.bufferIndex from Int.add_zero _]
    exact (hstock.remove hnodup hindex).1
  | _ => cases hcode

/-- A call puts no thread midway. -/
theorem call_midway {s : Kitchen} {place next : Place} {op : Threads.Op}
    (hcode : (program crew).code s place = .call op next) :
    midway (none, place) = midway (some op, next) := by
  cases place with
  | funcA rest =>
    cases rest <;> cases hcode
    rfl
  | _ => cases hcode <;> rfl

theorem Stocked.stock_step (hs : Stocked X w) (hk : Kept crew w)
    (h : Turn (program crew) own w w' w.sys.currentRunningThread) :
    Stock w'.shared (w'.shared.bufferIndex + w'.total midway) := by
  have hn := hk.hosted.calm.lives.exits.next
  have hsame : w'.shared = w.shared → w'.total midway = w.total midway →
      Stock w'.shared (w'.shared.bufferIndex + w'.total midway) := by
    intro hshared htotal
    rw [hshared, htotal]
    exact hs.stock
  rcases h.total hn with ⟨x, y, d, hplace, -, -, -, hmove, htotals⟩ |
    ⟨f, v, p, before, place, next, -, hcode, hshared, -, -, htotals⟩ <;>
    have htotal := htotals midway
  · cases hmove with
    | stay x hshared => exact hsame hshared (add_right_cancel htotal)
    | start f f' v _ hshared =>
      rw [(body_weight crew f v).2.2, (body_weight crew f' v).2.2] at htotal
      exact hsame hshared (add_right_cancel htotal)
    | routine op before place next _ _ hshared => exact hsame hshared (add_right_cancel htotal)
    | call op place next hcode hshared =>
      rw [call_midway hcode] at htotal
      exact hsame hshared (add_right_cancel htotal)
    | act place next hcode =>
      refine act_stock hcode htotal (fun hin => ?_) hs.stock hs.numbered.nodup (hs.index_ge hk).1
      have hthreads : w.threads w.sys.currentRunningThread = place := congrArg Prod.snd hplace
      rw [← hplace]
      exact hk.total_inner midway_outside (by rw [hthreads]; exact hin)
  · obtain ⟨-, -, hzero⟩ := forks_permits hcode
    have hfork : midway (some (.tFork f v p), next) = 0 := hzero
    rw [(body_weight crew f v).2.2, hzero, hfork] at htotal
    exact hsame hshared (by omega)

theorem Stocked.step (hs : Stocked X w) (hk : Kept crew w)
    (h : w.step g (program crew) tick = some w') : Stocked X w' := by
  have hturn : Turn (program crew) False w w' w.sys.currentRunningThread :=
    (World.goes h).turn hk.hosted program_plain False.elim
  have hn := hk.hosted.calm.lives.exits.next
  refine ⟨?_, ?_, fun i => hk.hosted.value_nonneg program_plain h (hs.values i),
    hs.stock_step hk hturn, ?_⟩
  · rw [← hs.full]
    refine hturn.conserves (fun k p => k.bufferIndex - p 1) hn
      (fun s s' x y d p hmove => (moves_permits (X := X) p hmove).1) ?_
    intro f v p before place next hcode
    rw [(body_weight crew f v).1, (forks_permits hcode).1, Int.add_zero]
  · rw [← hs.empty]
    refine hturn.conserves (fun k p => X - k.bufferIndex - p 2) hn
      (fun s s' x y d p hmove => (moves_permits p hmove).2) ?_
    intro f v p before place next hcode
    rw [(body_weight crew f v).2.1, (forks_permits hcode).2.1, Int.add_zero]
  · cases hturn with
    | moves x y d _ _ _ _ _ hmove =>
      rcases moves_inserted hmove with hsame | ⟨item, hnew⟩
      · refine ⟨fun b hb => ?_, ?_⟩
        · rw [hsame] at hb ⊢
          exact hs.numbered.serial b hb
        · rw [hsame]
          exact hs.numbered.nodup
      · exact hs.numbered.insert item hnew
    | fork _ _ _ _ _ _ _ _ hshared => rw [hshared]; exact hs.numbered

theorem stocked_opened (h : World.Opens (program crew) (objects X) opened w) : Stocked X w := by
  have hfull : w.total fullWeight = 0 := h.total_zero fun _ => rfl
  have hempty : w.total emptyWeight = 0 := h.total_zero fun _ => rfl
  have hmidway : w.total midway = 0 := h.total_zero fun _ => rfl
  obtain ⟨cap, p, hsys, hshared, -⟩ := h
  obtain ⟨a, hcalls, hstart⟩ := Option.bind_eq_some_iff.mp hsys
  have hprepared : Prepared a := ⟨cap, objects X, hcalls⟩
  obtain ⟨store, -, -, hspec⟩ := tStart_spec hprepared.created hstart
  cases hcalls
  have hsem : w.sys.semaphores =
      Function.update (Function.update (fun _ => none) 1 (some 0)) 2 (some (X : ℤ)) := by
    rw [hspec]
    rfl
  have hpermits : ∀ i, w.sys.permits i = (w.sys.semaphores i).getD 0 := by
    intro i
    have hcount : w.sys.semaphoreWaiters i = 0 := by
      rw [hspec]
      simp [State.semaphoreWaiters, newSem, newLock, loaded]
    rw [State.permits, hcount, Int.sub_zero]
  refine ⟨?_, ?_, fun i v hv => ?_, ⟨0, ?_, ?_⟩, ⟨?_, ?_⟩⟩
  · rw [hfull, hpermits, hsem, hshared]
    rfl
  · rw [hempty, hpermits, hsem, hshared]
    simp [opened]
  · rw [hsem] at hv
    by_cases htwo : i = 2
    · subst htwo
      simp only [Function.update_self, Option.some.injEq] at hv
      omega
    · rw [Function.update_of_ne htwo] at hv
      by_cases hone : i = 1
      · subst hone
        simp only [Function.update_self, Option.some.injEq] at hv
        omega
      · simp [Function.update_of_ne hone] at hv
  · rw [hmidway, hshared]
    rfl
  · simp [hshared, opened, Kitchen.slots]
  · simp [hshared, opened]
  · simp [hshared, opened]

theorem stocked_of_run {ok : Tick → World Kitchen Place → Prop}
    (h₀ : World.Opens (program crew) (objects X) opened w₀)
    (hrun : Run (World.step g (program crew)) ok w₀ w) : Kept crew w ∧ Stocked X w :=
  Secured.of_run program_plain program_section h₀ (stocked_opened h₀)
    (fun _ _ _ hk hs _ hstep => hs.step hk hstep) hrun

/-- A thread at a place that comes after no `Semaphore_P` waits at no semaphore. -/
theorem not_waiting {t : Tid} (hk : Kept crew w) (hp : w.threads t ≠ .acquireP)
    (hc : w.threads t ≠ .acquireC) (i : SemId) : t ∉ w.sys.contents (.sem i) := by
  intro ht
  obtain ⟨-, -, shared, place, hcode⟩ := hk.hosted.waits i t ht
  rcases code_wait hcode with ⟨-, h⟩ | ⟨-, h⟩
  · exact hp h
  · exact hc h

/-- In every state the index is within the buffer; `Insert_Item` stores and `Remove_Item`
loads at an index below `X`, and what `Remove_Item` loads has been inserted and not removed;
nothing is inserted or removed twice; and while no thread is inside the mutex the items
inserted are those removed and those in the buffer. -/
theorem bounded_buffer_safe (h₀ : World.Opens (program crew) (objects X) opened w₀)
    (hrun : Run (World.step g (program crew)) (fun _ _ => True) w₀ w) :
    0 ≤ w.shared.bufferIndex ∧ w.shared.bufferIndex ≤ X ∧
    (∀ t item, w.threads t = .insertItem item → w.shared.bufferIndex < X) ∧
    (∀ t, w.threads t = .removeItem → w.shared.bufferIndex < X ∧
      w.shared.buffer w.shared.bufferIndex ∈ w.shared.inserted ∧
      w.shared.buffer w.shared.bufferIndex ∉ w.shared.removed) ∧
    w.shared.inserted.Nodup ∧ w.shared.removed.Nodup ∧ w.shared.removed ⊆ w.shared.inserted ∧
    ((∀ t, ¬ Inside w t) → w.shared.inserted.Perm
      (w.shared.removed ++ w.shared.slots w.shared.bufferIndex.toNat)) := by
  obtain ⟨hk, hs⟩ := stocked_of_run h₀ hrun
  obtain ⟨hnonneg, -⟩ := hs.index_ge hk
  obtain ⟨hle, hfree⟩ := hs.index_le hk
  -- a thread that has a permit of `empty` and uses it is not among the waiters
  have hslot : ∀ t, (w.threads t).isInner = true → 1 ≤ emptyWeight (w.pos t) →
      w.shared.bufferIndex < X := by
    intro t hin hweight
    have hnot : ∀ p, Place.isInner p = false → w.threads t ≠ p := by
      rintro p hp rfl
      rw [hp] at hin
      cases hin
    have hone := hfree t (hk.running hin).2.2.2 (not_waiting hk (hnot _ rfl) (hnot _ rfl) 2)
    omega
  obtain ⟨n, hn, hperm⟩ := hs.stock
  have hnodup := List.nodup_append.mp (hperm.nodup_iff.mp hs.numbered.nodup)
  refine ⟨hnonneg, hle, fun t item ht => ?_, fun t ht => ⟨?_, ?_⟩, hs.numbered.nodup,
    hnodup.1, fun b hb => hperm.mem_iff.mpr (List.mem_append_left _ hb), fun hout => ?_⟩
  · exact hslot t (by rw [ht]; rfl) (by rw [World.pos, ht]; exact le_rfl)
  · exact hslot t (by rw [ht]; rfl) (by rw [World.pos, ht]; exact le_rfl)
  · have htotal : w.total midway = midway (w.pos t) :=
      hk.total_inner midway_outside (t := t) (by rw [ht]; rfl)
    have hstock := hs.stock
    rw [htotal, World.pos, ht] at hstock
    exact (hstock.remove hs.numbered.nodup hnonneg).2
  · have htotal : w.total midway = 0 := by
      refine tally_eq_zero fun t _ => midway_outside _ fun hin => hout t ?_
      obtain ⟨rfl, -, hstack, -⟩ := hk.running hin
      exact ⟨inMutex_of_isInner hin, point_own hstack rfl rfl⟩
    rw [htotal] at hn
    rw [show w.shared.bufferIndex.toNat = n by omega]
    exact hperm

/-- A student takes the burger that a cook has put into the one slot. -/
theorem bounded_buffer_safe_one :
    ∃ w₀ w : World Kitchen Place,
      World.Opens (program [(2, 127), (1, 127)]) (objects 1) opened w₀ ∧
      w.threads 2 = .removeItem ∧ w.shared.bufferIndex < (1 : ℕ) ∧
      w.shared.buffer w.shared.bufferIndex ∈ w.shared.inserted := by
  obtain ⟨w₀, w, h₀, hrun, hgood⟩ := exists_world .statement (fun _ _ => True)
    (program [(2, 127), (1, 127)]) (objects 1) opened 126 (List.replicate 48 .run)
    (fun w => w.threads 2 = .removeItem) (by decide +kernel)
  have hplace := of_decide_eq_true hgood
  obtain ⟨-, -, -, hload, -⟩ := bounded_buffer_safe h₀ hrun
  obtain ⟨hindex, hmem, -⟩ := hload 2 hplace
  exact ⟨w₀, w, h₀, hplace, hindex, hmem⟩

end UserThreads.BoundedBuffer
