import UserThreads.FifoCalls

/-!
Emptying a queue before `q_destroy`, as the comment of `QUEUE.H` advises. By this comment
`q_remove` returns NULL if the queue is empty, so that a loop can stop there. But `q_remove`
reads `q->head->next` also when it has found no head. The loop takes out all the objects in
order, and then its next call dereferences NULL, whatever the queue was. A loop that asks
`q_is_empty` first leaves a queue like a new one.
-/
namespace UserThreads.Queue

open LinkedCells Store

variable {ι α : Type} {st st' : Store ι α} {q : ι} {obj null : α} {xs : List α}
  {c : Call ι α} {calls : List (Call ι α)} {lists : Fifos ι α} {x : Option α}
  {rs : List (Option α)} {n m : ℕ}

/-- How a loop over `q_remove` ends, and what it leaves. -/
inductive Ending (ι α : Type)
  /-- `q_remove` has returned NULL -/
  | null (st : Store ι α)
  /-- `q_remove` has dereferenced a null node -/
  | fault (st : Store ι α)

namespace Call

def created : Call ι α → Option ι
  | .create q => some q
  | _ => none

/-- The call is one of `q_insert` or `q_remove` on the queue. -/
def Uses (q : ι) : Call ι α → Prop
  | .create _ => False
  | .insert r _ _ | .remove r => r = q

end Call

/-- A client makes each queue once and inserts no NULL. -/
structure Proper (null : α) (calls : List (Call ι α)) : Prop where
  once : (calls.filterMap Call.created).Nodup
  objects : ∀ q a, .insert q a null ∉ calls

/-- The record says of a queue whether it is empty. -/
theorem Represents.record (h : Represents st lists) (hq : lists q = some xs) :
    ∃ Q, st.queues q = some Q ∧ (Q.numObj = 0 ↔ xs = []) ∧ (Q.head = none ↔ xs = []) ∧
      (Q.tail = none ↔ xs = []) := by
  obtain ⟨Q, nodes, hQ, rfl, hlinks, hnum, -, hends, -⟩ := h.queue hq
  have hhead : Q.head = none ↔ nodes.map Prod.snd = [] := by
    rw [hlinks.head]
    simp
  refine ⟨Q, hQ, ?_, hhead, hends.symm.trans hhead⟩
  rw [hnum]
  simp

theorem Represents.made (h : Represents st lists) (hq : st.queues q ≠ none) :
    ∃ xs, lists q = some xs := by
  obtain ⟨chains, hch, hlists⟩ := h
  obtain ⟨nodes, hnodes, -⟩ := hch.made hq
  exact ⟨_, (hlists q).trans (by rw [hnodes]; rfl)⟩

theorem Represents.isEmpty (h : Represents st lists) (hq : lists q = some xs) :
    st.qIsEmpty q = some (decide (xs = [])) := by
  obtain ⟨Q, hQ, hnum, -⟩ := h.record hq
  simp [Store.qIsEmpty, hQ, hnum]

/-- An empty queue has the record that `q_create` makes. -/
theorem Represents.fresh (h : Represents st lists) (hq : lists q = some []) :
    st.queues q = some ⟨0, none, none⟩ := by
  obtain ⟨⟨numObj, head, tail⟩, hQ, hnum, hhead, htail⟩ := h.record hq
  obtain rfl : numObj = 0 := hnum.mpr rfl
  obtain rfl : head = none := hhead.mpr rfl
  obtain rfl : tail = none := htail.mpr rfl
  exact hQ

variable [DecidableEq ι]

/-- `while((obj = q_remove(q)) != NULL)`, for at most so many calls: the objects, and how the
loop ends. The error branch of `q_remove` returns NULL too. -/
def drain [DecidableEq α] (null : α) (q : ι) : ℕ → Store ι α → Option (List α × Ending ι α)
  | 0, _ => none
  | n + 1, st =>
    match st.qRemove q with
    | none => some ([], .fault st)
    | some (x, st') =>
      if x.getD null = null then some ([], .null st')
      else (drain null q n st').map fun y => (x.getD null :: y.1, y.2)

/-- `while(!q_is_empty(q)) q_remove(q)`, for at most so many rounds. -/
def drainTested (q : ι) : ℕ → Store ι α → Option (List (Option α) × Store ι α)
  | 0, _ => none
  | n + 1, st => do
    let empty ← st.qIsEmpty q
    if empty then some ([], st)
    else
      let (x, st) ← st.qRemove q
      let (xs, st) ← drainTested q n st
      some (x :: xs, st)

/-- On the queue the calls return what they return on a fresh one. -/
def LikeFresh (q : ι) (st : Store ι α) : Prop :=
  ∀ later : List (Call ι α), (∀ c ∈ later, c.Uses q) →
    (serveAll later st).map Prod.fst = (serveAll later (st.qCreate q)).map Prod.fst

/-- The loop does what the comment promises: it ends with NULL when it has yielded the objects
in order, and leaves an empty queue like a fresh one. -/
def Empties [DecidableEq α] (null : α) (q : ι) (st : Store ι α) : Prop :=
  ∃ n st', drain null q n st = some (st.contents q, .null st') ∧ st'.qIsEmpty q = some true ∧
    LikeFresh q st'

section Reached

/-- A call that is served was permitted, if it makes no queue a second time. -/
theorem Represents.permitted (h : Represents st lists) (hserve : c.serve st = some (x, st'))
    (hnew : ∀ q, c.created = some q → st.queues q = none) : c.Permitted st := by
  cases c with
  | create q => exact hnew q rfl
  | insert q a obj =>
    obtain ⟨st₁, hins, -⟩ := Option.map_eq_some_iff.mp hserve
    simp only [Store.qInsert, Option.bind_eq_bind, Option.bind_eq_some_iff, Store.linkTail,
      Store.hasTail] at hins
    obtain ⟨st₂, hobj, st₃, ⟨linked, ⟨Q, hQ, -⟩, -⟩, -⟩ := hins
    obtain ⟨hfree, rfl⟩ := newObj_spec hobj
    refine ⟨fun hnone => ?_, hfree⟩
    cases hnone.symm.trans hQ
  | remove q =>
    have hrem : st.qRemove q = some (x, st') := hserve
    simp only [Store.qRemove, Option.bind_eq_bind, Option.bind_eq_some_iff] at hrem
    obtain ⟨Q, hQ, a, hhead, -⟩ := hrem
    obtain ⟨xs, hxs⟩ := h.made (q := q) (by simp [hQ])
    obtain ⟨Q', hQ', -, hnull, -⟩ := h.record hxs
    obtain rfl := Option.some.inj (hQ.symm.trans hQ')
    have hne : xs ≠ [] := by
      rw [ne_eq, ← hnull, hhead]
      simp
    exact (h.isEmpty hxs).trans (congrArg some (decide_eq_false hne))

/-- A call makes the queue it creates and no other. -/
theorem serve_unmade (hserve : c.serve st = some (x, st')) (hq : st.queues q = none)
    (hne : c.created ≠ some q) : st'.queues q = none := by
  cases c with
  | create r =>
    cases hserve
    refine (qCreate_of_ne ?_).trans hq
    rintro rfl
    exact hne rfl
  | insert r a obj =>
    obtain ⟨st₁, hins, heq⟩ := Option.map_eq_some_iff.mp hserve
    cases heq
    exact (qInsert_none hins).mpr hq
  | remove r => exact (qRemove_none hserve).mpr hq

omit [DecidableEq ι] in
theorem mem_created :
    q ∈ (c :: calls).filterMap Call.created ↔
      c.created = some q ∨ q ∈ calls.filterMap Call.created := by
  simp

/-- Calls that are served were permitted, if each queue is made once. -/
theorem Represents.permittedAll (h : Represents st lists)
    (hserve : Queue.serveAll calls st = some (rs, st'))
    (honce : (calls.filterMap Call.created).Nodup)
    (hnew : ∀ q ∈ calls.filterMap Call.created, st.queues q = none) : PermittedAll calls st := by
  induction calls generalizing st lists rs with
  | nil => trivial
  | cons c calls ih =>
    simp only [Queue.serveAll, Option.bind_eq_bind, Option.bind_eq_some_iff] at hserve
    obtain ⟨⟨x, st₁⟩, hone, ⟨xs, st₂⟩, hrest, heq⟩ := hserve
    cases heq
    have hpermitted := h.permitted hone fun q hq => hnew q (mem_created.mpr (Or.inl hq))
    obtain ⟨st₃, hserve', h₁⟩ := h.serve hpermitted
    cases hone.symm.trans hserve'
    have hapart : (calls.filterMap Call.created).Nodup ∧
        ∀ q ∈ calls.filterMap Call.created, c.created ≠ some q := by
      cases hc : c.created with
      | none =>
        rw [List.filterMap_cons_none hc] at honce
        exact ⟨honce, fun q _ => by simp⟩
      | some r =>
        rw [List.filterMap_cons_some hc] at honce
        obtain ⟨hnot, hnodup⟩ := List.nodup_cons.mp honce
        refine ⟨hnodup, fun q hq heq => hnot ?_⟩
        rwa [Option.some.inj heq]
    refine ⟨hpermitted, ?_⟩
    rw [hone]
    refine ih h₁ hrest hapart.1 fun q hq => ?_
    exact serve_unmade hone (hnew q (mem_created.mpr (Or.inr hq))) (hapart.2 q hq)

/-- What a client has inserted and not removed is not NULL. -/
theorem Proper.reaches (h : Proper null calls)
    (hserve : serveAll calls Store.empty = some (rs, st)) :
    ∃ lists, Represents st lists ∧ ∀ q xs, lists q = some xs → null ∉ xs := by
  have hok : PermittedAll calls (Store.empty : Store ι α) :=
    represents_empty.permittedAll hserve h.once fun _ _ => rfl
  obtain ⟨st', hserve', hrep⟩ := represents_empty.serveAll hok
  cases hserve.symm.trans hserve'
  refine ⟨_, hrep, fun q xs hq hmem => ?_⟩
  have horder := represents_empty.serveAll_order hok q
  have hinserted : null ∈ calls.filterMap (Call.inserted q) := by
    rw [hq, Option.getD_none, List.nil_append] at horder
    rw [horder]
    exact List.mem_append_right _ hmem
  obtain ⟨c, hc, hnull⟩ := List.mem_filterMap.mp hinserted
  cases c with
  | create | remove => cases hnull
  | insert r a obj =>
    simp only [Call.inserted, Option.ite_none_right_eq_some, Option.some.injEq] at hnull
    exact h.objects r a (hnull.2 ▸ hc)

end Reached

/-- Removing takes the first object of the list. -/
theorem Represents.takes (h : Represents st lists) (hq : lists q = some (obj :: xs)) :
    ∃ st', st.qRemove q = some (some obj, st') ∧
      ∃ lists', Represents st' lists' ∧ lists' q = some xs := by
  obtain ⟨st', hrem, h'⟩ := h.serve (c := .remove q) (h.isEmpty hq)
  refine ⟨st', hrem.trans ?_, _, h', ?_⟩
  · simp [Call.fifo, hq]
  · simp [Call.fifo, hq]

section Loops

variable [DecidableEq α]

/-- A loop that has ended is not changed by a larger bound. -/
theorem drain_mono {y : List α × Ending ι α} (h : drain null q n st = some y) (hle : n ≤ m) :
    drain null q m st = some y := by
  induction n generalizing st m y with
  | zero => cases h
  | succ n ih =>
    obtain ⟨m, rfl⟩ := Nat.exists_eq_add_of_le' (le_trans (Nat.le_add_left 1 n) hle)
    rw [drain] at h ⊢
    cases hrem : st.qRemove q with
    | none => simpa only [hrem] using h
    | some y' =>
      obtain ⟨x, st'⟩ := y'
      simp only [hrem] at h ⊢
      split at h <;> rename_i hnull
      · rwa [if_pos hnull]
      · rw [if_neg hnull]
        obtain ⟨y', hy', rfl⟩ := Option.map_eq_some_iff.mp h
        rw [ih hy' (Nat.le_of_succ_le_succ hle)]
        rfl

theorem not_empties (h : drain null q n st = some (xs, .fault st')) : ¬ Empties null q st := by
  rintro ⟨m, st₁, hdrain, -⟩
  have hsame := (drain_mono h (le_max_left n m)).symm.trans (drain_mono hdrain (le_max_right n m))
  cases hsame

/-- With one call more than there are objects the loop yields them and dereferences NULL. -/
theorem Represents.drain (h : Represents st lists) (hq : lists q = some xs) (hnull : null ∉ xs) :
    ∃ st', Queue.drain null q (xs.length + 1) st = some (xs, .fault st') ∧
      st'.queues q = some ⟨0, none, none⟩ := by
  induction xs generalizing st lists with
  | nil =>
    have hfresh := h.fresh hq
    have hrem : st.qRemove q = none := by
      simp [Store.qRemove, hfresh]
    refine ⟨st, ?_, hfresh⟩
    simp only [Queue.drain, hrem]
  | cons obj xs ih =>
    obtain ⟨hne, hrest⟩ := not_or.mp (mt List.mem_cons.mpr hnull)
    obtain ⟨st₁, hrem, lists₁, h₁, hq₁⟩ := h.takes hq
    obtain ⟨st', hdrain, hend⟩ := ih h₁ hq₁ hrest
    refine ⟨st', ?_, hend⟩
    simp only [List.length_cons, Queue.drain, hrem, Option.getD_some, if_neg (Ne.symm hne), hdrain]
    rfl

/-- From every queue that a client reaches the loop yields the objects in order and then
dereferences NULL. -/
theorem emptying_faults (hproper : Proper null calls)
    (hserve : serveAll calls Store.empty = some (rs, st)) (hq : st.queues q ≠ none) :
    ¬ Empties null q st ∧ ∃ st', st'.queues q = some ⟨0, none, none⟩ ∧
      drain null q ((st.contents q).length + 1) st = some (st.contents q, .fault st') := by
  obtain ⟨lists, hrep, hobjects⟩ := hproper.reaches hserve
  obtain ⟨xs, hxs⟩ := hrep.made hq
  obtain ⟨st', hdrain, hend⟩ := hrep.drain hxs (hobjects q xs hxs)
  have hcontents : st.contents q = xs := by
    rw [hrep.contents_eq, hxs]
    rfl
  rw [hcontents]
  exact ⟨not_empties hdrain, st', hend, hdrain⟩

/-- Two objects are taken out, and the third call dereferences NULL. -/
theorem emptying_not_promised :
    ¬ ∀ (calls : List (Call ℕ ℕ)) (rs : List (Option ℕ)) (st : Store ℕ ℕ) (q : ℕ),
      Proper 0 calls → serveAll calls Store.empty = some (rs, st) → st.queues q ≠ none →
      Empties 0 q st := by
  intro hall
  have hempties := hall [.create 0, .insert 0 7 1, .insert 0 8 2] _ _ 0
    ⟨by decide, by simp⟩ rfl (by decide)
  exact not_empties (n := 3) rfl hempties

/-- A queue from which one of three objects has been removed. -/
theorem emptying_faults_two :
    ∃ (rs : List (Option ℕ)) (st st' : Store ℕ ℕ),
      serveAll [.create 0, .insert 0 7 1, .insert 0 8 2, .remove 0, .insert 0 7 3] Store.empty =
        some (rs, st) ∧ drain 0 0 3 st = some ([2, 3], .fault st') := by
  have hproper : Proper 0 ([.create 0, .insert 0 7 1, .insert 0 8 2, .remove 0, .insert 0 7 3] :
      List (Call ℕ ℕ)) := ⟨by decide, by simp⟩
  obtain ⟨-, st', -, hdrain⟩ := emptying_faults (q := 0) hproper rfl (by decide)
  exact ⟨_, _, st', rfl, hdrain⟩

end Loops

section Tested

/-- With a test before each call the loop yields the objects and ends with the queue empty. -/
theorem Represents.drainTested (h : Represents st lists) (hq : lists q = some xs) :
    ∃ st', Queue.drainTested q (xs.length + 1) st = some (xs.map some, st') ∧
      st'.queues q = some ⟨0, none, none⟩ := by
  induction xs generalizing st lists with
  | nil =>
    refine ⟨st, ?_, h.fresh hq⟩
    simp [Queue.drainTested, h.isEmpty hq]
  | cons obj xs ih =>
    obtain ⟨st₁, hrem, lists₁, h₁, hq₁⟩ := h.takes hq
    obtain ⟨st', hdrain, hend⟩ := ih h₁ hq₁
    refine ⟨st', ?_, hend⟩
    rw [List.length_cons, Queue.drainTested]
    simp [h.isEmpty hq, hrem, hdrain]

/-- A queue with the record of a fresh one behaves like it. -/
theorem likeFresh (h : st.queues q = some ⟨0, none, none⟩) : LikeFresh q st := by
  have hsame : st.qCreate q = st := by
    rw [Store.qCreate, ← h, Function.update_eq_self]
  intro later _
  rw [hsame]

/-- A loop with the test keeps the promise of the comment. -/
theorem emptied_when_tested (honce : (calls.filterMap Call.created).Nodup)
    (hserve : serveAll calls Store.empty = some (rs, st)) (hq : st.queues q ≠ none) :
    ∃ st', Queue.drainTested q ((st.contents q).length + 1) st =
        some ((st.contents q).map some, st') ∧
      st'.qIsEmpty q = some true ∧ LikeFresh q st' := by
  have hok : PermittedAll calls (Store.empty : Store ι α) :=
    represents_empty.permittedAll hserve honce fun _ _ => rfl
  obtain ⟨st₁, hserve', hrep⟩ := represents_empty.serveAll hok
  cases hserve.symm.trans hserve'
  obtain ⟨xs, hxs⟩ := hrep.made hq
  obtain ⟨st', hdrain, hend⟩ := hrep.drainTested hxs
  rw [hrep.contents_eq, hxs]
  exact ⟨st', hdrain, by simp [Store.qIsEmpty, hend], likeFresh hend⟩

end Tested

end UserThreads.Queue
