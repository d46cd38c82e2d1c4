import UserThreads.Emptying
import UserThreads.Faults

/-!
The nodes of the queues. The library makes no queue twice, inserts into no queue that has
not been made, and removes nothing from an empty queue; so its memory is always one that
permitted calls make of the empty memory. Therefore no node is lost and none is shared: the
nodes that are allocated are those of the threads that stand in a queue, one for each.
-/
namespace UserThreads.Queue

open LinkedCells Store

variable {ι α : Type} {st st' : Store ι α} {lists : Fifos ι α} {x : α} {a b : Addr}
  {c d : Cell α} {q : ι}

/-- A node in memory belongs to a queue, which has its object. -/
theorem Represents.mem_of_cell (h : Represents st lists) (ha : st.cells a = some c) :
    ∃ q nodes, Holds st q nodes ∧ (a, c.obj) ∈ nodes := by
  obtain ⟨chains, hch, -⟩ := h
  obtain ⟨q, nodes, hnodes, ⟨a', x⟩, hx, rfl⟩ := hch.covered a c ha
  have hholds := hch.holds q nodes hnodes
  obtain ⟨n, hcell⟩ := hholds.links.cell_of_mem hx
  cases ha.symm.trans hcell
  exact ⟨q, nodes, hholds, hx⟩

/-- An object in a queue has a node. -/
theorem Represents.cell_of_mem (h : Represents st lists) (hx : x ∈ st.contents q) :
    ∃ a c, st.cells a = some c ∧ c.obj = x := by
  obtain ⟨chains, hch, hlists⟩ := h
  cases hnodes : chains q with
  | none => simp [Store.contents, hch.unmade q hnodes] at hx
  | some nodes =>
    have hholds := hch.holds q nodes hnodes
    rw [hholds.contents_eq] at hx
    obtain ⟨⟨a, y⟩, hy, rfl⟩ := List.mem_map.mp hx
    obtain ⟨n, hcell⟩ := hholds.links.cell_of_mem hy
    exact ⟨a, _, hcell, rfl⟩

/-- Where every object is in one queue at most, and once, it has one node. -/
theorem Represents.cell_unique (h : Represents st lists) (hnodup : ∀ q, (st.contents q).Nodup)
    (hone : ∀ x q r, x ∈ st.contents q → x ∈ st.contents r → q = r)
    (ha : st.cells a = some c) (hb : st.cells b = some d) (hobj : c.obj = d.obj) : a = b := by
  obtain ⟨q, xs, hxs, hax⟩ := h.mem_of_cell ha
  obtain ⟨r, ys, hys, hby⟩ := h.mem_of_cell hb
  have hmem : c.obj ∈ st.contents q := by
    rw [hxs.contents_eq]
    exact List.mem_map.mpr ⟨_, hax, rfl⟩
  have hmem' : c.obj ∈ st.contents r := by
    rw [hys.contents_eq, hobj]
    exact List.mem_map.mpr ⟨_, hby, rfl⟩
  obtain rfl := hone _ _ _ hmem hmem'
  have hrecord := hxs.record.symm.trans hys.record
  simp only [Option.some.injEq, QueueT.mk.injEq] at hrecord
  have hlinks := hys.links
  rw [← hrecord.2.1] at hlinks
  obtain rfl := hxs.links.unique hlinks
  have honce := hnodup q
  rw [hxs.contents_eq] at honce
  exact congrArg Prod.fst (List.inj_on_of_nodup_map honce hax hby hobj)

variable [DecidableEq ι] {y : Option α}

/-- What permitted calls make of the empty memory. -/
def Served (st : Store ι α) : Prop :=
  ∃ calls ys, PermittedAll calls Store.empty ∧ serveAll calls Store.empty = some (ys, st)

theorem served_empty : Served (Store.empty : Store ι α) := ⟨[], [], trivial, rfl⟩

theorem Served.represents (h : Served st) : ∃ lists, Represents st lists := by
  obtain ⟨calls, ys, hok, hserve⟩ := h
  obtain ⟨st', hserve', hrep⟩ := represents_empty.serveAll hok
  cases hserve.symm.trans hserve'
  exact ⟨_, hrep⟩

theorem serveAll_snoc {calls : List (Call ι α)} {call : Call ι α} {st₁ : Store ι α}
    {ys : List (Option α)}
    (h : serveAll calls st = some (ys, st₁)) (hcall : call.serve st₁ = some (y, st')) :
    serveAll (calls ++ [call]) st = some (ys ++ [y], st') := by
  induction calls generalizing st ys with
  | nil =>
    cases h
    simp [serveAll, hcall]
  | cons c calls ih =>
    simp only [serveAll, Option.bind_eq_bind, Option.bind_eq_some_iff] at h
    obtain ⟨⟨z, st₂⟩, hone, ⟨zs, st₃⟩, hrest, heq⟩ := h
    cases heq
    simp [serveAll, hone, ih hrest]

theorem permittedAll_snoc {calls : List (Call ι α)} {call : Call ι α} {st₁ : Store ι α}
    {ys : List (Option α)}
    (hok : PermittedAll calls st) (h : serveAll calls st = some (ys, st₁))
    (hcall : call.Permitted st₁) : PermittedAll (calls ++ [call]) st := by
  induction calls generalizing st ys with
  | nil =>
    cases h
    refine ⟨hcall, ?_⟩
    split <;> trivial
  | cons c calls ih =>
    simp only [serveAll, Option.bind_eq_bind, Option.bind_eq_some_iff] at h
    obtain ⟨⟨z, st₂⟩, hone, ⟨zs, st₃⟩, hrest, heq⟩ := h
    cases heq
    obtain ⟨hpermitted, hlater⟩ := hok
    rw [hone] at hlater
    refine ⟨hpermitted, ?_⟩
    rw [hone]
    exact ih hlater hrest

/-- One call more, which makes no queue a second time. -/
theorem Served.serve (call : Call ι α) (h : Served st)
    (hserve : call.serve st = some (y, st'))
    (hnew : ∀ q, call.created = some q → st.queues q = none) : Served st' := by
  obtain ⟨lists, hrep⟩ := h.represents
  obtain ⟨calls, ys, hok, hall⟩ := h
  exact ⟨calls ++ [call], ys ++ [y], permittedAll_snoc hok hall (hrep.permitted hserve hnew),
    serveAll_snoc hall hserve⟩

theorem Served.insert (h : Served st) (hins : st.qInsert q a x = some st') : Served st' :=
  h.serve (.insert q a x) (congrArg (Option.map fun st => (none, st)) hins)
    fun _ hq => by cases hq

theorem Served.remove (h : Served st) (hrem : st.qRemove q = some (y, st')) : Served st' :=
  h.serve (.remove q) hrem fun _ hq => by cases hq

theorem Served.create (h : Served st) (hq : st.queues q = none) : Served (st.qCreate q) :=
  h.serve (.create q) rfl fun _ hq' => by cases hq'; exact hq

end UserThreads.Queue

namespace UserThreads.Threads

open LinkedCells Queue Runs MultilevelQueue

variable {g : Grain} {s s' s₀ : State} {m : Move} {store : Store QRef Tid} {c : CondId}

theorem Served.condQueues (h : Served store) (n : ℕ)
    (hnone : ∀ n : ℕ, (condQueues c store n).queues (.cond c n) = none) :
    Served (Threads.condQueues c store n) := by
  induction n with
  | zero => exact h
  | succ n ih => exact ih.create (hnone n)

theorem Served.readyQueues (h : Served store) (n : ℕ)
    (hnone : ∀ n : ℕ, (readyQueues store n).queues (.ready n) = none) :
    Served (Threads.readyQueues store n) := by
  induction n with
  | zero => exact h
  | succ n ih => exact ih.create (hnone n)

/-- Whatever a routine does with the queues is permitted. -/
theorem Trans.served (h : Trans g s m s') (hu : Unjoined s) (hs : Served s.store) :
    Served s'.store := by
  cases h with
  | suspend q f k next store h hslot hins => exact hs.insert hins
  | fork f v p k k' b store hstack hslot hins => exact hs.insert hins
  | sigWake c val lock k i t store store' hstack hscan hslot hrem hslot' hins =>
    exact (hs.remove hrem).insert hins
  | semWake i k v t store store' hstack hsem hcount hslot hrem hslot' hins =>
    exact (hs.remove hrem).insert hins
  | dispatchNew y t k store hstack hscan hslot hrem => exact hs.remove hrem
  | dispatchOld y t k k' store hstack hscan hslot hrem => exact hs.remove hrem
  | newCond lock k hstack hid =>
    obtain ⟨owner, hledger, -⟩ := hu.queues.booked
    have hnew := fun p => hu.queues.cond s.conditionID p le_rfl
    exact Served.condQueues hs 128 fun n => (hledger.condQueues n hnew).2 n le_rfl
  | newSem count k hstack => exact hs.create (hu.queues.sem _ (Nat.lt_succ_self _))
  | insertWhole _ _ _ _ _ hstack | insertCall _ _ _ _ _ _ hstack
  | inserting _ _ _ _ _ _ _ _ _ hstack | inserted _ _ _ _ _ _ _ hstack =>
    cases hu.joinFree.top hstack
  | _ => exact hs

theorem Prepared.served (h : Prepared s) : Served s.store := by
  have hboth : Prepared s ∧ Served s.store := by
    refine h.invariant (I := fun a => Prepared a ∧ Served a.store)
      (fun cap => ⟨⟨cap, [], rfl⟩, served_empty⟩) fun call a b ha hcall => ⟨?_, ?_⟩
    · obtain ⟨cap, calls, hcalls⟩ := ha.1
      exact ⟨cap, calls ++ [call], by simp [List.foldlM_append, hcalls, hcall]⟩
    · have hun : Unstarted AllQueues (fun _ _ => True) a := ha.1.unstarted
      cases call with
      | lock =>
        cases hcall
        exact ha.2
      | cond lock =>
        simp only [mainCall, newCond, Option.bind_eq_bind, Option.bind_eq_some_iff,
          Option.some.injEq] at hcall
        obtain ⟨_, -, rfl⟩ := hcall
        have hnew := fun p => hun.cond a.conditionID p le_rfl
        exact Served.condQueues ha.2 128 fun n => (hun.ledger.condQueues n hnew).2 n le_rfl
      | sem count =>
        cases hcall
        exact ha.2.create (hun.sem _ (Nat.lt_succ_self _))
  exact hboth.2

theorem Initial.served (h : Initial s) : Served s.store := by
  obtain ⟨a, f, v, p, store, ha, -, hins, rfl⟩ := h.spec
  have hun : Unstarted AllQueues (fun _ _ => True) a := ha.unstarted
  refine (Served.readyQueues ha.served 128 fun n => ?_).insert hins
  exact ((hun.ledger.readyQueues n hun.ready).2 n).mpr (by omega)

/-- In a run without `t_join` calls the memory of the queues is always one that permitted
calls make of the empty memory, and its nodes are those of the threads that stand in a queue:
each node is in a queue, each such thread has one, and no two are for one thread. So there
are never more nodes than threads have been forked. -/
theorem nodes_of_queued (h₀ : Initial s₀) (hrun : Run (step g) NoJoins s₀ s) :
    Served s.store ∧
    (∀ a c, s.store.cells a = some c → ∃ q, c.obj ∈ s.contents q) ∧
    (∀ t q, t ∈ s.contents q → ∃ a c, s.store.cells a = some c ∧ c.obj = t) ∧
    (∀ a b c d, s.store.cells a = some c → s.store.cells b = some d → c.obj = d.obj → a = b) ∧
    ∀ A : Finset Addr, (∀ a ∈ A, s.store.cells a ≠ none) → A.card ≤ s.gThreadID.toNat := by
  have hall : Unjoined s ∧ Served s.store :=
    hrun.invariant (I := fun a => Unjoined a ∧ Served a.store) ⟨h₀.unjoined, h₀.served⟩
      fun _ _ _ hI hm hstep => ⟨(step_trans hstep).unjoined hm hI.1,
        (step_trans hstep).served hI.1 hI.2⟩
  obtain ⟨hu, hs⟩ := hall
  obtain ⟨lists, hrep⟩ := hs.represents
  have hmem : ∀ a c, s.store.cells a = some c → ∃ q, c.obj ∈ s.contents q := by
    intro a c ha
    obtain ⟨q, nodes, hholds, hnode⟩ := hrep.mem_of_cell ha
    refine ⟨q, ?_⟩
    change c.obj ∈ s.store.contents q
    rw [hholds.contents_eq]
    exact List.mem_map.mpr ⟨_, hnode, rfl⟩
  have hunique : ∀ a b c d, s.store.cells a = some c → s.store.cells b = some d →
      c.obj = d.obj → a = b := by
    intro a b c d
    refine hrep.cell_unique hu.standing.nodup fun t q r hq hr => ?_
    by_contra hne
    exact (hu.standing.of_mem hq).2 r (Ne.symm hne) hr
  refine ⟨hs, hmem, fun t q ht => hrep.cell_of_mem ht, hunique, fun A hA => ?_⟩
  -- the thread of a node is one of those that have been forked
  let owner : Addr → ℤ := fun a => ((s.store.cells a).map Cell.obj).getD 0
  have hcell : ∀ a ∈ A, ∃ c, s.store.cells a = some c ∧ owner a = c.obj := by
    intro a ha
    obtain ⟨c, hc⟩ := Option.ne_none_iff_exists'.mp (hA a ha)
    exact ⟨c, hc, by simp [owner, hc]⟩
  have hforked : ∀ a ∈ A, owner a ∈ tids s.gThreadID := by
    intro a ha
    obtain ⟨c, hc, howner⟩ := hcell a ha
    obtain ⟨q, ht⟩ := hmem a c hc
    rw [howner]
    exact mem_tids.mpr ((soundOk_of_run h₀ hrun).2.queued q _ ht)
  have hinj : Set.InjOn owner A := by
    intro a ha b hb hsame
    obtain ⟨c, hc, hownerc⟩ := hcell a ha
    obtain ⟨d, hd, hownerd⟩ := hcell b hb
    exact hunique a b c d hc hd (hownerc.symm.trans (hsame.trans hownerd))
  calc A.card ≤ (tids s.gThreadID).card := Finset.card_le_card_of_injOn owner hforked hinj
    _ ≤ (Finset.range s.gThreadID.toNat).card := Finset.card_image_le
    _ = s.gThreadID.toNat := Finset.card_range _

/-- The first thread waits at a semaphore, and has a node there. -/
theorem nodes_of_queued_waiter :
    ∃ s₀ s : State, Initial s₀ ∧ s.contents (.sem 1) = [1] ∧
      ∃ (a : Addr) (c : Cell Tid), s.store.cells a = some c ∧ c.obj = 1 := by
  obtain ⟨s₀, s, h₀, hrun, hgood⟩ := exists_run .statement NoJoins [.sem 0] 1
    [.exec, .exec, .call (.tFork 0 .null 1), .exec, .exec, .call (.semaphoreP 1), .exec, .exec]
    (fun s => s.contents (.sem 1) = [1]) (by decide +kernel)
  have hwaits : s.contents (.sem 1) = [1] := of_decide_eq_true hgood
  exact ⟨s₀, s, h₀, hwaits, (nodes_of_queued h₀ hrun).2.2.1 1 (.sem 1) (by simp [hwaits])⟩

end UserThreads.Threads
